import Mcmp.Server.Clients

/-!
# The two beats of the heartbeat

`mcmchHeartbeatCall` of heartbeat.c walks over the occupied slots of a table of clients. It marks
the slot of a client whose alive flag is clear in a second bitmap, and clears the alive flag of any
other client. The clients show that they are alive by having their flags set, at any moment. So a
client is marked when it has not shown itself from the time one call has treated its slot until the
next call looks at it.

A call is modelled one access at a time: it tests a flag, and clears it in a step of its own, so
that a flag can be set in between. The steps of all the others are steps of the same machine: flags
are set at any moment, and between two calls clients join and leave the table and marks are taken
away.

The macros that read and change the flag of a client are not in the tree. `AliveFlag` says what is
assumed of them.
-/

set_option autoImplicit false
set_option relaxedAutoImplicit false

namespace Mcmp.Server.HeartbeatCall

open Foundation.ByteBits Foundation.Interleaving Utilities Server.Clients

universe u

variable {Client : Type u}

/-! ### The call and its surroundings -/

/-- `MCMCHCLIENT_ISALIVE`, `MCMCHCLIENT_CLEARFLAG` and the setting of the flag
`MCMCHCLIENT_FLAG_ALIVE`. -/
structure AliveFlag (Client : Type u) where
  isAlive : Client → Bool
  clearFlag : Client → Client
  setFlag : Client → Client
  isAlive_clearFlag : ∀ client, isAlive (clearFlag client) = false
  isAlive_setFlag : ∀ client, isAlive (setFlag client) = true

/-- The table of the clients, and the bitmap of the marks. -/
structure BeatState (Client : Type u) where
  broadcast : McmchClientBroadcast Client
  result : ByteMemory

/-- Where the heartbeat is: outside a call, at the head of the loop with the slot that the scanner
has returned, or at the clearing of a flag that it has found set. -/
inductive CallStage
  | idle
  | head (slot : ℤ)
  | clearing (slot : ℤ)
  deriving DecidableEq, Repr

/-- What happens: a call begins, tests the flag of a slot, clears it, and returns; and outside the
call, a flag is set, a client joins or leaves, and a mark is taken away. -/
inductive BeatEvent
  | called
  | tested (slot : ℕ) (alive : Bool)
  | cleared (slot : ℕ)
  | returned
  | flagged (slot : ℕ)
  | joined (slot : ℕ)
  | left (slot : ℕ)
  | dropped (slot : ℕ)
  deriving DecidableEq, Repr

/-- The head of the loop after the scan from an offset on. The bitmap of the table does not change
during a call, so a scan is part of the step before it. -/
def scanned (broadcast : McmchClientBroadcast Client) (offset : ℕ) : CallStage :=
  .head (BitmapScan.mcmpBitmapNextOccupiedBit broadcast.bitmap offset broadcast.bitmapLength).result

/-- The table with the record of a slot changed. -/
def BeatState.modify (state : BeatState Client) (slot : ℕ) (f : Client → Client) :
    BeatState Client :=
  { state with
    broadcast := { state.broadcast with
      records := Function.update state.broadcast.records slot (f (state.broadcast.records slot)) } }

variable (flag : AliveFlag Client)

/-- The next step of the heartbeat. -/
def mcmchHeartbeatCall (state : BeatState Client) :
    CallStage → BeatEvent × BeatState Client × CallStage
  | .idle => (.called, state, scanned state.broadcast 0)
  | .head slot =>
    if slot = -1 then (.returned, state, .idle)
    else if ¬ flag.isAlive (state.broadcast.records slot.toNat) then
      (.tested slot.toNat false,
        { state with result := Bitmap.mcmpBitmapEnableBit state.result 0 slot },
        scanned state.broadcast (slot + 1).toNat)
    else (.tested slot.toNat true, state, .clearing slot)
  | .clearing slot =>
    (.cleared slot.toNat, state.modify slot.toNat flag.clearFlag,
      scanned state.broadcast (slot + 1).toNat)

/-- What can be told to happen next. -/
inductive BeatCommand (Client : Type u)
  | advance
  | flag (slot : ℕ)
  | join (slot : ℕ) (client : Client)
  | leave (slot : ℕ)
  | drop (slot : ℕ)

/-- The heartbeat and its surroundings. -/
def beatMachine : Machine (BeatCommand Client) (BeatState Client) CallStage BeatEvent
  | .advance, state, stage => some (mcmchHeartbeatCall flag state stage)
  | .flag slot, state, stage => some (.flagged slot, state.modify slot flag.setFlag, stage)
  | .join slot client, state, .idle =>
    let broadcast := state.broadcast
    some (.joined slot,
      { state with
        broadcast := { broadcast with
          bitmap := setBit broadcast.bitmap slot
          records := Function.update broadcast.records slot client } },
      .idle)
  | .leave slot, state, .idle =>
    let broadcast := state.broadcast
    some (.left slot,
      { state with broadcast := { broadcast with bitmap := clearBit broadcast.bitmap slot } },
      .idle)
  | .drop slot, state, .idle =>
    some (.dropped slot, { state with result := clearBit state.result slot }, .idle)
  | _, _, _ => none

/-- A history of the one machine. -/
abbrev BeatHistory := List (Unit × BeatEvent)

/-- The runs from a state at a stage. -/
abbrev BeatRun (state : BeatState Client) (stage : CallStage) :=
  Run (beatMachine flag).program anyStep
    (⟨state, fun _ ↦ stage⟩ : Config Unit (BeatState Client) CallStage)

/-! ### What a call and two calls in a row have to do -/

/-- A slot is occupied. -/
def occupied (state : BeatState Client) (slot : ℕ) : Bool :=
  decide (slot < 8 * state.broadcast.bitmapLength) && bit state.broadcast.bitmap slot

/-- What an event does to the client of a slot. -/
def AliveFlag.after (slot : ℕ) (client : Client) (entry : Unit × BeatEvent) : Client :=
  if entry.2 = .flagged slot then flag.setFlag client
  else if entry.2 = .cleared slot then flag.clearFlag client
  else client

/-- The client of a slot after a history in which nobody joins there. -/
def AliveFlag.replay (slot : ℕ) (history : BeatHistory) (client : Client) : Client :=
  history.foldl (flag.after slot) client

/-- The test of the flag of a slot. -/
def BeatEvent.tests (slot : ℕ) : BeatEvent → Bool
  | .tested other _ => other = slot
  | _ => false

/-- The steps of the call itself. -/
def BeatEvent.ofCall : BeatEvent → Bool
  | .tested _ _ => true
  | .cleared _ => true
  | _ => false

/-- A complete call: every occupied slot is tested once and no other slot is touched; a test reads
the flag as it is at that moment, before the call clears it; the slots whose test found the flag
clear are added to the marks; every flag that was found set is cleared; and nothing else changes. -/
structure CallContract (state : BeatState Client) (during : BeatHistory)
    (state' : BeatState Client) : Prop where
  tested_once : ∀ slot, during.countP (fun entry ↦ entry.2.tests slot) =
    if occupied state slot then 1 else 0
  tested_alive : ∀ before after slot alive, during = before ++ ((), .tested slot alive) :: after →
    alive = flag.isAlive (flag.replay slot before (state.broadcast.records slot)) ∧
      ((), .cleared slot) ∉ before
  marked : ∀ slot, bit state'.result slot =
    (bit state.result slot || decide (((), BeatEvent.tested slot false) ∈ during))
  cleared : ∀ slot, during.count ((), .cleared slot) = during.count ((), .tested slot true)
  records : ∀ slot, state'.broadcast.records slot =
    flag.replay slot during (state.broadcast.records slot)
  rest : state'.broadcast = { state.broadcast with records := state'.broadcast.records }

/-- A complete call during which no flag is set: the slots of the clients that are not alive at the
call are added to the marks, the flags of the clients that are alive are cleared, and nothing else
changes. -/
structure QuietContract (state state' : BeatState Client) : Prop where
  marked : ∀ slot, bit state'.result slot = (bit state.result slot ||
    (occupied state slot && !flag.isAlive (state.broadcast.records slot)))
  records : ∀ slot, state'.broadcast.records slot =
    if occupied state slot && flag.isAlive (state.broadcast.records slot) then
      flag.clearFlag (state.broadcast.records slot)
    else state.broadcast.records slot
  rest : state'.broadcast = { state.broadcast with records := state'.broadcast.records }

/-- A call is through with a slot: it has marked it, or cleared its flag. -/
def Treats (slot : ℕ) (event : BeatEvent) : Prop :=
  event = .tested slot false ∨ event = .cleared slot

/-- Two calls in a row and what happens between them. The client of a slot that is occupied at both
is found dead by the second call when its flag has not been set since the first call was through
with it. When its flag is not set during the calls, the second call marks it if and only if the flag
was not set between them. -/
structure TwoBeats (slot : ℕ) (first between second : BeatHistory) : Prop where
  tested : ∀ done event rest before alive after, first = done ++ ((), event) :: rest →
    Treats slot event → second = before ++ ((), .tested slot alive) :: after →
    (alive = false ↔ ((), .flagged slot) ∉ rest ++ between ++ before)
  marked : ((), .flagged slot) ∉ first → ((), .flagged slot) ∉ second →
    (((), .tested slot false) ∈ second ↔ ((), .flagged slot) ∉ between)

/-! ### One step -/

section Steps

variable {flag : AliveFlag Client} {state state' : BeatState Client} {stage stage' : CallStage}
  {event : BeatEvent} {slot other : ℕ} {client : Client} {history : BeatHistory}

@[simp] theorem records_modify (f : Client → Client) :
    (state.modify slot f).broadcast.records other =
      if other = slot then f (state.broadcast.records other)
      else state.broadcast.records other := by
  by_cases h : other = slot
  · subst h
    simp [BeatState.modify]
  · simp [BeatState.modify, h]

@[simp] theorem result_modify (f : Client → Client) :
    (state.modify slot f).result = state.result :=
  rfl

theorem broadcast_modify (f : Client → Client) :
    (state.modify slot f).broadcast =
      { state.broadcast with records := (state.modify slot f).broadcast.records } :=
  rfl

@[simp] theorem replay_nil : flag.replay slot [] client = client :=
  rfl

@[simp] theorem replay_append (before after : BeatHistory) :
    flag.replay slot (before ++ after) client =
      flag.replay slot after (flag.replay slot before client) :=
  List.foldl_append

theorem replay_cons (entry : Unit × BeatEvent) :
    flag.replay slot (entry :: history) client =
      flag.replay slot history (flag.after slot client entry) :=
  rfl

@[simp] theorem replay_flagged :
    flag.replay slot [((), .flagged other)] client =
      if other = slot then flag.setFlag client else client := by
  simp [AliveFlag.replay, AliveFlag.after]

@[simp] theorem replay_cleared :
    flag.replay slot [((), .cleared other)] client =
      if other = slot then flag.clearFlag client else client := by
  simp [AliveFlag.replay, AliveFlag.after]

/-- The other events do not change the client of a slot. -/
theorem replay_other (hflagged : event ≠ .flagged slot) (hcleared : event ≠ .cleared slot) :
    flag.replay slot [((), event)] client = client := by
  simp [AliveFlag.replay, AliveFlag.after, hflagged, hcleared]

/-- Without a clearing, a client is alive after a history when it was so before or its flag is
set. -/
theorem isAlive_replay (hcleared : ((), .cleared slot) ∉ history) :
    flag.isAlive (flag.replay slot history client) = true ↔
      flag.isAlive client = true ∨ ((), .flagged slot) ∈ history := by
  induction history generalizing client with
  | nil => simp
  | cons entry history ih =>
    obtain ⟨hentry, hrest⟩ := not_or.mp (mt List.mem_cons.mpr hcleared)
    have hnot : entry.2 ≠ .cleared slot := fun h ↦ hentry (Prod.ext rfl h.symm)
    rw [replay_cons, ih hrest, List.mem_cons]
    by_cases hflagged : entry.2 = .flagged slot
    · have hsame : ((), BeatEvent.flagged slot) = entry := Prod.ext rfl hflagged.symm
      simp [AliveFlag.after, hflagged, flag.isAlive_setFlag, hsame]
    · have hne : ((), BeatEvent.flagged slot) ≠ entry := fun h ↦ hflagged (congrArg Prod.snd h).symm
      simp [AliveFlag.after, hflagged, hnot, hne]

/-- What happens is a step of the heartbeat, a flag that is set, or something that waits for the
heartbeat to be idle. -/
theorem beatStep_cases (hstep : (beatMachine flag).program state stage event state' stage') :
    mcmchHeartbeatCall flag state stage = (event, state', stage') ∨
    (∃ slot, event = .flagged slot ∧ state' = state.modify slot flag.setFlag ∧ stage' = stage) ∨
    (stage = .idle ∧ stage' = .idle ∧
      state'.broadcast.bitmapLength = state.broadcast.bitmapLength ∧
      ∃ slot, (event = .joined slot ∨ event = .left slot ∨ event = .dropped slot) ∧
        ∀ other, (event ≠ .joined other → state'.broadcast.records other =
            state.broadcast.records other) ∧
          (event ≠ .joined other → event ≠ .left other →
            bit state'.broadcast.bitmap other = bit state.broadcast.bitmap other)) := by
  obtain ⟨command, hcommand⟩ := hstep
  cases command with
  | advance => exact Or.inl (Option.some.inj hcommand)
  | flag slot =>
    simp only [beatMachine, Option.some.injEq, Prod.mk.injEq] at hcommand
    obtain ⟨rfl, rfl, rfl⟩ := hcommand
    exact Or.inr (Or.inl ⟨slot, rfl, rfl, rfl⟩)
  | join slot client =>
    cases stage with
    | idle =>
      simp only [beatMachine, Option.some.injEq, Prod.mk.injEq] at hcommand
      obtain ⟨rfl, rfl, rfl⟩ := hcommand
      refine Or.inr (Or.inr ⟨rfl, rfl, rfl, slot, Or.inl rfl, fun other ↦ ⟨fun hne ↦ ?_,
        fun hne _ ↦ ?_⟩⟩)
      · have hother : other ≠ slot := fun h ↦ hne (by rw [h])
        simp [hother]
      · have hother : other ≠ slot := fun h ↦ hne (by rw [h])
        simp [hother]
    | head _ => exact absurd hcommand (by simp [beatMachine])
    | clearing _ => exact absurd hcommand (by simp [beatMachine])
  | leave slot =>
    cases stage with
    | idle =>
      simp only [beatMachine, Option.some.injEq, Prod.mk.injEq] at hcommand
      obtain ⟨rfl, rfl, rfl⟩ := hcommand
      refine Or.inr (Or.inr ⟨rfl, rfl, rfl, slot, Or.inr (Or.inl rfl), fun other ↦ ⟨fun _ ↦ rfl,
        fun _ hne ↦ ?_⟩⟩)
      have hother : other ≠ slot := fun h ↦ hne (by rw [h])
      simp [hother]
    | head _ => exact absurd hcommand (by simp [beatMachine])
    | clearing _ => exact absurd hcommand (by simp [beatMachine])
  | drop slot =>
    cases stage with
    | idle =>
      simp only [beatMachine, Option.some.injEq, Prod.mk.injEq] at hcommand
      obtain ⟨rfl, rfl, rfl⟩ := hcommand
      exact Or.inr (Or.inr ⟨rfl, rfl, rfl, slot, Or.inr (Or.inr rfl),
        fun _ ↦ ⟨fun _ ↦ rfl, fun _ _ ↦ rfl⟩⟩)
    | head _ => exact absurd hcommand (by simp [beatMachine])
    | clearing _ => exact absurd hcommand (by simp [beatMachine])

end Steps

/-! ### One call -/

/-- The invariant of a call that has dealt with the slots below a position, apart from the clearing
that it is about to make: `state` is what it started from, `during` what has happened since. -/
structure Progress (state : BeatState Client) (during : BeatHistory) (state' : BeatState Client)
    (stage : CallStage) (position : ℕ) : Prop where
  position_le : position ≤ 8 * state.broadcast.bitmapLength
  tested_once : ∀ slot, during.countP (fun entry ↦ entry.2.tests slot) =
    if slot < position ∧ occupied state slot then 1 else 0
  tested_alive : ∀ before entry after, during = before ++ entry :: after →
    ∀ slot alive, entry = ((), .tested slot alive) →
      alive = flag.isAlive (flag.replay slot before (state.broadcast.records slot)) ∧
        ((), .cleared slot) ∉ before
  marked : ∀ slot, bit state'.result slot =
    (bit state.result slot || decide (((), BeatEvent.tested slot false) ∈ during))
  records : ∀ slot, state'.broadcast.records slot =
    flag.replay slot during (state.broadcast.records slot)
  rest : state'.broadcast = { state.broadcast with records := state'.broadcast.records }
  steps : during.countP (fun entry ↦ entry.2.ofCall) ≤ 2 * position
  cleared : (stage = scanned state.broadcast position ∧
      ∀ slot, during.count ((), .cleared slot) = during.count ((), .tested slot true)) ∨
    ∃ slot : ℕ, stage = .clearing slot ∧ position = slot + 1 ∧
      during.countP (fun entry ↦ entry.2.ofCall) < 2 * position ∧
      ∀ other, during.count ((), .tested other true) =
        during.count ((), .cleared other) + if other = slot then 1 else 0

section Calls

variable {flag : AliveFlag Client} {state state' : BeatState Client} {stage : CallStage}
  {during : BeatHistory} {slot position : ℕ}

theorem progress_start (state : BeatState Client) :
    Progress flag state [] state (scanned state.broadcast 0) 0 := by
  refine ⟨Nat.zero_le _, fun slot ↦ by simp, fun before entry after h ↦ by simp at h,
    fun slot ↦ by simp, fun slot ↦ rfl, rfl, by simp, Or.inl ⟨rfl, fun slot ↦ by simp⟩⟩

/-- A flag is set. -/
theorem Progress.flagged (h : Progress flag state during state' stage position) (slot : ℕ) :
    Progress flag state (during ++ [((), BeatEvent.flagged slot)])
      (state'.modify slot flag.setFlag) stage position := by
  refine ⟨h.position_le, fun other ↦ ?_, ?_, fun other ↦ ?_, fun other ↦ ?_, ?_, ?_, ?_⟩
  · simpa [BeatEvent.tests] using h.tested_once other
  · refine (forall_split_concat _ _ _).mpr ⟨h.tested_alive, fun other alive hentry ↦ ?_⟩
    simp at hentry
  · simpa using h.marked other
  · simp only [records_modify, h.records, replay_append, replay_flagged, eq_comm]
  · rw [broadcast_modify, h.rest]
  · simpa [BeatEvent.ofCall] using h.steps
  · simpa [BeatEvent.ofCall] using h.cleared

/-- What the scanner finds from a position on: nothing occupied, or the next occupied slot. -/
theorem scanned_cases (state : BeatState Client)
    (hlen : 8 * state.broadcast.bitmapLength < 2 ^ 63) (position : ℕ) :
    (scanned state.broadcast position = .head (-1) ∧
        ∀ slot, position ≤ slot → occupied state slot = false) ∨
      ∃ slot : ℕ, scanned state.broadcast position = .head slot ∧ position ≤ slot ∧
        slot < 2 ^ 63 ∧ occupied state slot = true ∧
        ∀ other, position ≤ other → other < slot → occupied state other = false := by
  have hscan := BitmapScan.nextBit_cases BitmapScan.occupied state.broadcast.bitmap position
    (show 8 ≤ 32 by decide) hlen
  rw [scanned, BitmapScan.mcmpBitmapNextOccupiedBit]
  rcases hscan with ⟨hresult, hnone⟩ | ⟨slot, hresult, hposition, hslot, hset, hnone⟩
  · refine Or.inl ⟨by rw [hresult], fun slot hposition ↦ ?_⟩
    by_cases hin : slot < 8 * state.broadcast.bitmapLength
    · have hclear : bit state.broadcast.bitmap slot = false := hnone slot hposition hin
      simp [occupied, hclear]
    · simp [occupied, hin]
  · have hset' : bit state.broadcast.bitmap slot = true := hset
    refine Or.inr ⟨slot, by rw [hresult], hposition, hslot.trans hlen, ?_,
      fun other hposition hother ↦ ?_⟩
    · simp [occupied, hslot, hset']
    · have hclear : bit state.broadcast.bitmap other = false := hnone other hposition hother
      simp [occupied, hclear]

theorem slot_lt_of_occupied (hoccupied : occupied state slot = true) :
    slot < 8 * state.broadcast.bitmapLength :=
  of_decide_eq_true (Bool.and_eq_true_iff.mp hoccupied).1

/-- What a test of the next occupied slot adds to the tests. -/
theorem Progress.tested_concat (h : Progress flag state during state' stage position)
    (hposition : position ≤ slot) (hoccupied : occupied state slot = true)
    (hnone : ∀ other, position ≤ other → other < slot → occupied state other = false)
    (alive : Bool) (other : ℕ) :
    (during ++ [((), BeatEvent.tested slot alive)]).countP (fun entry ↦ entry.2.tests other) =
      if other < slot + 1 ∧ occupied state other then 1 else 0 := by
  rw [List.countP_append, h.tested_once other]
  by_cases hsame : slot = other
  · subst hsame
    have hnew : ¬ slot < position := Nat.not_lt.mpr hposition
    simp [BeatEvent.tests, hnew, hoccupied]
  · have hiff : (other < slot + 1 ∧ occupied state other = true) ↔
        (other < position ∧ occupied state other = true) := by
      refine and_congr_left fun hother ↦ ⟨fun hlt ↦ ?_, fun hlt ↦ by omega⟩
      by_contra hge
      have hfree := hnone other (Nat.le_of_not_lt hge) (by omega)
      rw [hother] at hfree
      exact Bool.false_ne_true hfree.symm
    simp only [hiff, BeatEvent.tests, List.countP_singleton, hsame, decide_false,
      Bool.false_eq_true, if_false, add_zero]

/-- A test finds the flag set or clear. -/
theorem countP_tests (slot : ℕ) (during : BeatHistory) :
    during.countP (fun entry ↦ entry.2.tests slot) =
      during.count ((), .tested slot true) + during.count ((), .tested slot false) := by
  induction during with
  | nil => rfl
  | cons entry during ih =>
    obtain ⟨_, event⟩ := entry
    rw [List.countP_cons, List.count_cons, List.count_cons, ih]
    cases event with
    | tested other alive =>
      by_cases hsame : other = slot
      · subst hsame
        cases alive <;> simp [BeatEvent.tests] <;> omega
      · simp [BeatEvent.tests, hsame]
    | _ => simp [BeatEvent.tests]

/-- A test is one more step of the call. -/
theorem ofCall_tested (slot : ℕ) (alive : Bool) :
    (during ++ [((), BeatEvent.tested slot alive)]).countP (fun entry ↦ entry.2.ofCall) =
      during.countP (fun entry ↦ entry.2.ofCall) + 1 := by
  rw [List.countP_append, List.countP_singleton]
  rfl

/-- The next occupied slot is tested. -/
theorem Progress.test (h : Progress flag state during state' (.head slot) position)
    (hposition : position ≤ slot) (hbits : slot < 2 ^ 63) (hoccupied : occupied state slot = true)
    (hnone : ∀ other, position ≤ other → other < slot → occupied state other = false)
    {event : BeatEvent} {state'' : BeatState Client} {stage' : CallStage}
    (hcall : mcmchHeartbeatCall flag state' (.head slot) = (event, state'', stage')) :
    Progress flag state (during ++ [((), event)]) state'' stage' (slot + 1) := by
  have hslot := slot_lt_of_occupied hoccupied
  have hfound : ¬ ((slot : ℤ) = -1) := by omega
  have hnext : ((slot : ℤ) + 1).toNat = slot + 1 := by omega
  have hcleared : ∀ other, during.count ((), .cleared other) =
      during.count ((), .tested other true) := by
    rcases h.cleared with ⟨-, hcleared⟩ | ⟨_, hstage, -⟩
    · exact hcleared
    · exact absurd hstage (by simp)
  have hsteps := h.steps
  simp only [mcmchHeartbeatCall, hfound, if_false, Int.toNat_natCast, hnext] at hcall
  have halive := h.records slot
  have huncleared : ((), BeatEvent.cleared slot) ∉ during := by
    have hbefore := h.tested_once slot
    rw [if_neg fun hin ↦ absurd hin.1 (Nat.not_lt.mpr hposition), countP_tests] at hbefore
    rw [← List.count_eq_zero, hcleared]
    omega
  by_cases hdead : flag.isAlive (state'.broadcast.records slot) = true
  · simp only [hdead, not_true_eq_false, if_false, Prod.mk.injEq] at hcall
    obtain ⟨rfl, rfl, rfl⟩ := hcall
    refine ⟨hslot, h.tested_concat hposition hoccupied hnone true, ?_, fun other ↦ ?_,
      fun other ↦ ?_, h.rest, ?_, Or.inr ⟨slot, rfl, rfl, ?_, fun other ↦ ?_⟩⟩
    · refine (forall_split_concat _ _ _).mpr ⟨h.tested_alive, fun other alive hentry ↦ ?_⟩
      simp only [Prod.mk.injEq, BeatEvent.tested.injEq, true_and] at hentry
      obtain ⟨rfl, rfl⟩ := hentry
      exact ⟨by rw [← halive, hdead], huncleared⟩
    · simpa using h.marked other
    · rw [replay_append, replay_other (by simp) (by simp), h.records]
    · rw [ofCall_tested]
      omega
    · rw [ofCall_tested]
      omega
    · simp [hcleared, List.count_append, List.count_singleton, @eq_comm ℕ other]
  · rw [Bool.not_eq_true] at hdead
    simp only [hdead, Bool.false_eq_true, not_false_iff, if_true, Prod.mk.injEq] at hcall
    obtain ⟨rfl, rfl, rfl⟩ := hcall
    refine ⟨hslot, h.tested_concat hposition hoccupied hnone false, ?_, fun other ↦ ?_,
      fun other ↦ ?_, h.rest, ?_, Or.inl ⟨?_, fun other ↦ ?_⟩⟩
    · refine (forall_split_concat _ _ _).mpr ⟨h.tested_alive, fun other alive hentry ↦ ?_⟩
      simp only [Prod.mk.injEq, BeatEvent.tested.injEq, true_and] at hentry
      obtain ⟨rfl, rfl⟩ := hentry
      exact ⟨by rw [← halive, hdead], huncleared⟩
    · simp [enableBit_natCast hbits, h.marked other, Bool.or_assoc, eq_comm]
    · rw [replay_append, replay_other (by simp) (by simp), h.records]
    · rw [ofCall_tested]
      omega
    · rw [h.rest]
      rfl
    · simp [hcleared, List.count_append]

/-- The flag that was found set is cleared. -/
theorem Progress.clear {k : ℕ} (h : Progress flag state during state' (.clearing k) position)
    {event : BeatEvent} {state'' : BeatState Client} {stage' : CallStage}
    (hcall : mcmchHeartbeatCall flag state' (.clearing k) = (event, state'', stage')) :
    Progress flag state (during ++ [((), event)]) state'' stage' position := by
  rcases h.cleared with ⟨hstage, -⟩ | ⟨slot, hstage, rfl, hsteps, hcleared⟩
  · exact absurd hstage (by simp [scanned])
  · obtain rfl : k = slot := by simpa using hstage
    have hnext : ((k : ℤ) + 1).toNat = k + 1 := by omega
    simp only [mcmchHeartbeatCall, Int.toNat_natCast, hnext, Prod.mk.injEq] at hcall
    obtain ⟨rfl, rfl, rfl⟩ := hcall
    refine ⟨h.position_le, fun other ↦ ?_, ?_, fun other ↦ ?_, fun other ↦ ?_, ?_, ?_,
      Or.inl ⟨?_, fun other ↦ ?_⟩⟩
    · simpa [BeatEvent.tests] using h.tested_once other
    · refine (forall_split_concat _ _ _).mpr ⟨h.tested_alive, fun other alive hentry ↦ ?_⟩
      simp at hentry
    · simpa using h.marked other
    · simp only [records_modify, h.records, replay_append, replay_cleared, eq_comm]
    · rw [broadcast_modify, h.rest]
    · rw [List.countP_append, List.countP_singleton]
      exact hsteps
    · rw [h.rest]
      rfl
    · simp [hcleared, List.count_append, List.count_singleton, @eq_comm ℕ other]

/-- A step before the end of a call. -/
theorem Progress.step (hlen : 8 * state.broadcast.bitmapLength < 2 ^ 63)
    (h : Progress flag state during state' stage position) {event : BeatEvent}
    {state'' : BeatState Client} {stage' : CallStage}
    (hstep : (beatMachine flag).program state' stage event state'' stage')
    (hevent : event ≠ .returned) :
    ∃ position', Progress flag state (during ++ [((), event)]) state'' stage' position' := by
  rcases beatStep_cases hstep with hcall | ⟨slot, rfl, rfl, rfl⟩ | ⟨hidle, -⟩
  · rcases h.cleared with ⟨hstage, -⟩ | ⟨slot, rfl, -⟩
    · rcases scanned_cases state hlen position with ⟨hscan, -⟩ |
        ⟨slot, hscan, hposition, hbits, hoccupied, hnone⟩
      · rw [hstage, hscan] at hcall
        simp only [mcmchHeartbeatCall, if_true, Prod.mk.injEq] at hcall
        exact absurd hcall.1.symm hevent
      · obtain rfl := hstage.trans hscan
        exact ⟨slot + 1, h.test hposition hbits hoccupied hnone hcall⟩
    · exact ⟨position, h.clear hcall⟩
  · exact ⟨position, h.flagged slot⟩
  · rcases h.cleared with ⟨hstage, -⟩ | ⟨slot, hstage, -⟩
    · exact absurd (hstage.symm.trans hidle) (by simp [scanned])
    · exact absurd (hstage.symm.trans hidle) (by simp)

/-- A call that has not returned makes progress. -/
theorem progress_of_run (hlen : 8 * state.broadcast.bitmapLength < 2 ^ 63)
    {config : Config Unit (BeatState Client) CallStage}
    (hrun : BeatRun flag state (scanned state.broadcast 0) during config)
    (hduring : ((), .returned) ∉ during) :
    ∃ position, Progress flag state during config.shared (config.threads ()) position := by
  refine Run.invariant (fun during config ↦ ((), BeatEvent.returned) ∉ during →
    ∃ position, Progress flag state during config.shared (config.threads ()) position)
    ?_ ?_ hrun hduring
  · intro _
    exact ⟨0, progress_start state⟩
  · intro during config thread event state' stage' _ ih _ hstep hreturned
    obtain ⟨hpast, hlast⟩ := not_or.mp (mt List.mem_append.mpr hreturned)
    obtain ⟨position, hprogress⟩ := ih hpast
    refine hprogress.step hlen hstep fun hevent ↦ hlast ?_
    rw [hevent]
    exact List.mem_singleton_self _

/-- A call that returns has dealt with every occupied slot. -/
theorem Progress.contract (hlen : 8 * state.broadcast.bitmapLength < 2 ^ 63)
    (h : Progress flag state during state' stage position) {state'' : BeatState Client}
    {stage' : CallStage}
    (hstep : (beatMachine flag).program state' stage .returned state'' stage') :
    stage' = .idle ∧ CallContract flag state during state'' := by
  have hcall : mcmchHeartbeatCall flag state' stage = (.returned, state'', stage') := by
    rcases beatStep_cases hstep with hcall | ⟨slot, hevent, -⟩ | ⟨hidle, -⟩
    · exact hcall
    · exact absurd hevent (by simp)
    · rcases h.cleared with ⟨hstage, -⟩ | ⟨slot, hstage, -⟩
      · exact absurd (hstage.symm.trans hidle) (by simp [scanned])
      · exact absurd (hstage.symm.trans hidle) (by simp)
  rcases h.cleared with ⟨hstage, hcleared⟩ | ⟨slot, rfl, -⟩
  · rcases scanned_cases state hlen position with ⟨hscan, hnone⟩ | ⟨slot, hscan, -⟩
    · rw [hstage, hscan] at hcall
      simp only [mcmchHeartbeatCall, if_true, Prod.mk.injEq, true_and] at hcall
      obtain ⟨rfl, rfl⟩ := hcall
      refine ⟨rfl, fun slot ↦ ?_, fun before after slot alive hsplit ↦
        h.tested_alive before _ after hsplit slot alive rfl, h.marked, hcleared, h.records, h.rest⟩
      rw [h.tested_once]
      have hiff : (slot < position ∧ occupied state slot = true) ↔
          occupied state slot = true := by
        refine and_iff_right_of_imp fun hoccupied ↦ ?_
        by_contra hge
        rw [hnone slot (Nat.le_of_not_lt hge)] at hoccupied
        exact Bool.false_ne_true hoccupied
      simp only [hiff]
    · rw [hstage, hscan] at hcall
      have hfound : ¬ ((slot : ℤ) = -1) := by omega
      simp only [mcmchHeartbeatCall, hfound, if_false] at hcall
      split at hcall
      · simp at hcall
      · simp at hcall
  · simp [mcmchHeartbeatCall] at hcall

/-- Every occupied slot is tested. -/
theorem CallContract.exists_tested (h : CallContract flag state during state')
    (hoccupied : occupied state slot = true) :
    ∃ alive before after, during = before ++ ((), BeatEvent.tested slot alive) :: after := by
  have honce := h.tested_once slot
  rw [if_pos hoccupied] at honce
  obtain ⟨⟨_, event⟩, hmem, htests⟩ := List.countP_pos_iff.mp (honce ▸ Nat.one_pos)
  cases event with
  | tested other alive =>
    obtain rfl := of_decide_eq_true htests
    obtain ⟨before, after, hsplit⟩ := List.append_of_mem hmem
    exact ⟨alive, before, after, hsplit⟩
  | _ => exact absurd htests Bool.false_ne_true

/-- A slot is tested at most once, so one test of it tells whether it was found clear. -/
theorem CallContract.tested_iff (h : CallContract flag state during state') {alive : Bool}
    (htested : ((), .tested slot alive) ∈ during) :
    ((), .tested slot false) ∈ during ↔ alive = false := by
  cases alive with
  | false => exact iff_of_true htested rfl
  | true =>
    refine iff_of_false (fun hfalse ↦ ?_) (Bool.false_ne_true ·.symm)
    have honce := h.tested_once slot
    rw [countP_tests] at honce
    have htrue := List.count_pos_iff.mpr htested
    have hother := List.count_pos_iff.mpr hfalse
    split at honce <;> omega

/-- After a call is through with a slot it does not clear its flag. -/
theorem CallContract.not_cleared (h : CallContract flag state during state')
    {done rest : BeatHistory} {event : BeatEvent} (hsplit : during = done ++ ((), event) :: rest)
    (htreats : Treats slot event) : ((), .cleared slot) ∉ rest := by
  have honce := h.tested_once slot
  have hcleared := h.cleared slot
  rw [countP_tests] at honce
  rw [hsplit, List.count_append, List.count_cons] at hcleared
  rw [← List.count_eq_zero]
  rcases htreats with rfl | rfl
  · have hfalse : 0 < during.count ((), .tested slot false) :=
      List.count_pos_iff.mpr (by simp [hsplit])
    rw [← hsplit] at hcleared
    split at honce <;> omega
  · rw [← hsplit] at hcleared
    simp only [beq_self_eq_true, if_true] at hcleared
    split at honce <;> omega

/-- When the call is through with a slot, the flag of its client is clear. -/
theorem CallContract.treated_dead (h : CallContract flag state during state')
    {done rest : BeatHistory} {event : BeatEvent} (hsplit : during = done ++ ((), event) :: rest)
    (htreats : Treats slot event) :
    flag.isAlive (flag.replay slot [((), event)]
      (flag.replay slot done (state.broadcast.records slot))) = false := by
  rcases htreats with rfl | rfl
  · rw [replay_other (by simp) (by simp)]
    exact (h.tested_alive done rest slot false hsplit).1.symm
  · rw [replay_cleared, if_pos rfl, flag.isAlive_clearFlag]

/-- The flags that are cleared are those that were found set. -/
theorem CallContract.cleared_iff (h : CallContract flag state during state') :
    ((), .cleared slot) ∈ during ↔ ((), .tested slot true) ∈ during := by
  rw [← List.count_pos_iff, h.cleared, List.count_pos_iff]

/-- An occupied slot is treated. -/
theorem CallContract.exists_treated (h : CallContract flag state during state')
    (hoccupied : occupied state slot = true) :
    ∃ event done rest, during = done ++ ((), event) :: rest ∧ Treats slot event := by
  obtain ⟨alive, before, after, hsplit⟩ := h.exists_tested hoccupied
  cases alive with
  | false => exact ⟨_, before, after, hsplit, Or.inl rfl⟩
  | true =>
    have hmem : ((), BeatEvent.tested slot true) ∈ during := by simp [hsplit]
    obtain ⟨done, rest, hsplit'⟩ := List.append_of_mem (h.cleared_iff.mpr hmem)
    exact ⟨_, done, rest, hsplit', Or.inr rfl⟩

/-- Without a clearing and a setting the client of a slot stays as it is. -/
theorem replay_quiet {history : BeatHistory} {client : Client}
    (hflagged : ((), .flagged slot) ∉ history) (hcleared : ((), .cleared slot) ∉ history) :
    flag.replay slot history client = client := by
  induction history with
  | nil => rfl
  | cons entry history ih =>
    obtain ⟨hentry, hrest⟩ := not_or.mp (mt List.mem_cons.mpr hflagged)
    obtain ⟨hentry', hrest'⟩ := not_or.mp (mt List.mem_cons.mpr hcleared)
    have hafter : flag.after slot client entry = client := by
      have hne : entry.2 ≠ .flagged slot := fun h ↦ hentry (Prod.ext rfl h.symm)
      have hne' : entry.2 ≠ .cleared slot := fun h ↦ hentry' (Prod.ext rfl h.symm)
      simp [AliveFlag.after, hne, hne']
    rw [replay_cons, hafter, ih hrest hrest']

/-- Without a setting, a test reads the flag that the client has at the start of the call. -/
theorem CallContract.tested_quiet (h : CallContract flag state during state') {alive : Bool}
    (hquiet : ((), .flagged slot) ∉ during) (hmem : ((), .tested slot alive) ∈ during) :
    alive = flag.isAlive (state.broadcast.records slot) := by
  obtain ⟨before, after, hsplit⟩ := List.append_of_mem hmem
  obtain ⟨halive, hcleared⟩ := h.tested_alive before after slot alive hsplit
  have hflagged : ((), BeatEvent.flagged slot) ∉ before := fun hin ↦ hquiet (by simp [hsplit, hin])
  rwa [replay_quiet hflagged hcleared] at halive

/-- A slot that is not occupied is not tested. -/
theorem CallContract.not_tested (h : CallContract flag state during state')
    (hfree : occupied state slot = false) (alive : Bool) : ((), .tested slot alive) ∉ during := by
  intro hmem
  have honce := h.tested_once slot
  rw [hfree, if_neg Bool.false_ne_true, List.countP_eq_zero] at honce
  exact honce _ hmem (decide_eq_true rfl)

/-- What a test has found during a call in which no flag of the slot is set. -/
theorem CallContract.tested_quiet_iff (h : CallContract flag state during state')
    (hquiet : ((), .flagged slot) ∉ during) (alive : Bool) :
    ((), .tested slot alive) ∈ during ↔
      occupied state slot = true ∧ flag.isAlive (state.broadcast.records slot) = alive := by
  constructor
  · intro hmem
    refine ⟨?_, (h.tested_quiet hquiet hmem).symm⟩
    by_contra hfree
    exact h.not_tested (Bool.eq_false_iff.mpr hfree) alive hmem
  · rintro ⟨hoccupied, rfl⟩
    obtain ⟨alive, before, after, hsplit⟩ := h.exists_tested hoccupied
    have hmem : ((), BeatEvent.tested slot alive) ∈ during := by simp [hsplit]
    exact h.tested_quiet hquiet hmem ▸ hmem

/-- A call during which no flag is set. -/
theorem CallContract.quiet (h : CallContract flag state during state')
    (hquiet : ∀ slot, ((), .flagged slot) ∉ during) : QuietContract flag state state' := by
  refine ⟨fun slot ↦ ?_, fun slot ↦ ?_, h.rest⟩
  · rw [h.marked]
    simp only [h.tested_quiet_iff (hquiet slot), Bool.decide_and, Bool.decide_eq_true,
      Bool.decide_eq_false]
  · rw [h.records]
    by_cases hcleared : ((), BeatEvent.cleared slot) ∈ during
    · have hfound := (h.tested_quiet_iff (hquiet slot) true).mp (h.cleared_iff.mp hcleared)
      obtain ⟨done, rest, hsplit⟩ := List.append_of_mem hcleared
      have hrest := h.not_cleared hsplit (Or.inr rfl)
      have hdone : ((), BeatEvent.cleared slot) ∉ done := by
        intro hmem
        obtain ⟨earlier, later, rfl⟩ := List.append_of_mem hmem
        exact @CallContract.not_cleared _ _ _ _ _ slot h earlier
          (later ++ ((), .cleared slot) :: rest) _ (by simp [hsplit]) (Or.inr rfl) (by simp)
      rw [if_pos (Bool.and_eq_true_iff.mpr hfound), hsplit, replay_append, replay_cons,
        replay_quiet (fun hmem ↦ hquiet slot (by simp [hsplit, hmem])) hdone,
        replay_quiet (fun hmem ↦ hquiet slot (by simp [hsplit, hmem])) hrest]
      simp [AliveFlag.after]
    · rw [replay_quiet (hquiet slot) hcleared, if_neg]
      rw [Bool.and_eq_true_iff]
      exact fun hfound ↦ hcleared
        (h.cleared_iff.mpr ((h.tested_quiet_iff (hquiet slot) true).mpr hfound))

end Calls

/-! ### Two calls in a row -/

section Beats

variable {flag : AliveFlag Client} {state : BeatState Client} {stage : CallStage}
  {config : Config Unit (BeatState Client) CallStage} {during between : BeatHistory}

/-- A run of the one machine ends in a state at a stage, from which the next run starts. -/
theorem beatRun_split {before after : BeatHistory}
    (hrun : BeatRun flag state stage (before ++ after) config) :
    ∃ state' stage', BeatRun flag state stage before ⟨state', fun _ ↦ stage'⟩ ∧
      BeatRun flag state' stage' after config := by
  obtain ⟨middle, hbefore, hafter⟩ := hrun.split
  exact ⟨middle.shared, middle.threads (), hbefore, hafter⟩

/-- A call that has begun makes progress. -/
theorem progress_of_called (hlen : 8 * state.broadcast.bitmapLength < 2 ^ 63)
    (hrun : BeatRun flag state .idle (((), .called) :: during) config)
    (hduring : ((), .returned) ∉ during) :
    ∃ position, Progress flag state during config.shared (config.threads ()) position := by
  obtain ⟨state', stage', hcalled, hrest⟩ := @beatRun_split _ _ _ _ _ [((), .called)] during hrun
  obtain ⟨shared, own, hstep, hconfig⟩ := hcalled.single
  rcases beatStep_cases hstep with hcall | ⟨_, hevent, -⟩ | ⟨-, -, -, _, hevent, -⟩
  · simp only [mcmchHeartbeatCall, Prod.mk.injEq, true_and] at hcall
    obtain ⟨hshared, hown⟩ := hcall
    obtain ⟨hstate, hstages⟩ := (Config.mk.injEq ..).mp hconfig
    have hstage : stage' = own := congrFun hstages ()
    rw [hstate, ← hshared, hstage, ← hown] at hrest
    exact progress_of_run hlen hrest hduring
  · exact absurd hevent (by simp)
  · exact absurd hevent (by simp)

/-- A call that has returned meets its contract, and the heartbeat is idle again. -/
theorem contract_of_returned (hlen : 8 * state.broadcast.bitmapLength < 2 ^ 63)
    (hrun : BeatRun flag state .idle
      (((), BeatEvent.called) :: during ++ [((), BeatEvent.returned)]) config)
    (hduring : ((), .returned) ∉ during) :
    config.threads () = .idle ∧ CallContract flag state during config.shared := by
  obtain ⟨middle, shared, own, hbefore, -, hstep, rfl⟩ := hrun.last
  obtain ⟨position, hprogress⟩ := progress_of_called hlen hbefore hduring
  obtain ⟨rfl, hcontract⟩ := hprogress.contract hlen hstep
  exact ⟨rfl, hcontract⟩

/-- Between two calls the heartbeat is idle, and the client of a slot at which nobody joins and
leaves is there all the time. -/
theorem between_of_run (hrun : BeatRun flag state .idle between config)
    (hbetween : ((), .called) ∉ between) :
    config.threads () = .idle ∧
      config.shared.broadcast.bitmapLength = state.broadcast.bitmapLength ∧
      ∀ slot, ((), .cleared slot) ∉ between ∧ (((), .joined slot) ∉ between →
        config.shared.broadcast.records slot =
            flag.replay slot between (state.broadcast.records slot) ∧
          (((), .left slot) ∉ between → occupied config.shared slot = occupied state slot)) := by
  refine Run.invariant (fun between config ↦ ((), BeatEvent.called) ∉ between →
    config.threads () = .idle ∧
      config.shared.broadcast.bitmapLength = state.broadcast.bitmapLength ∧
      ∀ slot, ((), .cleared slot) ∉ between ∧ (((), .joined slot) ∉ between →
        config.shared.broadcast.records slot =
            flag.replay slot between (state.broadcast.records slot) ∧
          (((), .left slot) ∉ between → occupied config.shared slot = occupied state slot)))
    ?_ ?_ hrun hbetween
  · exact fun _ ↦ ⟨rfl, rfl, fun slot ↦ ⟨by simp, fun _ ↦ ⟨rfl, fun _ ↦ rfl⟩⟩⟩
  · rintro between config ⟨⟩ event state' stage' _ ih _ hstep hcalled
    obtain ⟨hpast, hlast⟩ := not_or.mp (mt List.mem_append.mpr hcalled)
    obtain ⟨hidle, hlength, hslots⟩ := ih hpast
    rcases beatStep_cases hstep with hcall | ⟨slot, rfl, rfl, rfl⟩ |
      ⟨-, rfl, hlength', slot, hevent, hkept⟩
    · rw [hidle] at hcall
      simp only [mcmchHeartbeatCall, Prod.mk.injEq] at hcall
      exact absurd (by simp [← hcall.1]) hlast
    · refine ⟨hidle, hlength, fun other ↦ ⟨?_, fun hjoined ↦ ?_⟩⟩
      · simpa using (hslots other).1
      · obtain ⟨hrecord, hoccupied⟩ := (hslots other).2 fun hmem ↦ hjoined (by simp [hmem])
        refine ⟨?_, fun hleft ↦ hoccupied fun hmem ↦ hleft (by simp [hmem])⟩
        simp only [Config.advance_shared, records_modify, hrecord, replay_append, replay_flagged,
          eq_comm]
    · refine ⟨rfl, hlength'.trans hlength, fun other ↦ ⟨?_, fun hjoined ↦ ?_⟩⟩
      · rcases hevent with rfl | rfl | rfl <;> simpa using (hslots other).1
      · obtain ⟨hrecord, hoccupied⟩ := (hslots other).2 fun hmem ↦ hjoined (by simp [hmem])
        have hnot : event ≠ .joined other := fun h ↦ hjoined (by simp [h])
        refine ⟨?_, fun hleft ↦ ?_⟩
        · rw [replay_append, replay_other, ← hrecord]
          · exact (hkept other).1 hnot
          · rcases hevent with rfl | rfl | rfl <;> simp
          · rcases hevent with rfl | rfl | rfl <;> simp
        · have hnot' : event ≠ .left other := fun h ↦ hleft (by simp [h])
          rw [← hoccupied fun hmem ↦ hleft (by simp [hmem]), occupied, occupied,
            Config.advance_shared, hlength', (hkept other).2 hnot hnot']

/-- The second of two calls in a row, by the contracts of both and what happens between them. -/
theorem twoBeats_of_contracts {first second : BeatHistory} {state₁ state₂ state' : BeatState Client}
    {slot : ℕ} (hfirst : CallContract flag state first state₁)
    (hbetween : ((), .cleared slot) ∉ between)
    (hrecord : state₂.broadcast.records slot =
      flag.replay slot between (state₁.broadcast.records slot))
    (hsecond : CallContract flag state₂ second state') (hoccupied : occupied state slot = true)
    (hoccupied' : occupied state₂ slot = true) : TwoBeats slot first between second := by
  have htested : ∀ done event rest before alive after, first = done ++ ((), event) :: rest →
      Treats slot event → second = before ++ ((), .tested slot alive) :: after →
      (alive = false ↔ ((), .flagged slot) ∉ rest ++ between ++ before) := by
    intro done event rest before alive after hdone htreats hbefore
    obtain ⟨halive, huncleared⟩ := hsecond.tested_alive before after slot alive hbefore
    have hcleared : ((), BeatEvent.cleared slot) ∉ rest ++ between ++ before := by
      simp only [List.mem_append, not_or]
      exact ⟨⟨hfirst.not_cleared hdone htreats, hbetween⟩, huncleared⟩
    have hreplay : flag.replay slot before (state₂.broadcast.records slot) =
        flag.replay slot (rest ++ between ++ before) (flag.replay slot [((), event)]
          (flag.replay slot done (state.broadcast.records slot))) := by
      rw [hrecord, hfirst.records, hdone]
      simp only [replay_append, replay_cons, replay_nil]
    have hdead := hfirst.treated_dead hdone htreats
    rw [halive, hreplay, Bool.eq_false_iff, Ne, isAlive_replay hcleared, hdead]
    simp
  refine ⟨htested, fun hquiet hquiet' ↦ ?_⟩
  obtain ⟨event, done, rest, hdone, htreats⟩ := hfirst.exists_treated hoccupied
  obtain ⟨alive, before, after, hbefore⟩ := hsecond.exists_tested hoccupied'
  have hmem : ((), BeatEvent.tested slot alive) ∈ second := by simp [hbefore]
  have hrest : ((), BeatEvent.flagged slot) ∉ rest := fun hin ↦ hquiet (by simp [hdone, hin])
  have hbefore' : ((), BeatEvent.flagged slot) ∉ before := fun hin ↦
    hquiet' (by simp [hbefore, hin])
  rw [hsecond.tested_iff hmem, htested done event rest before alive after hdone htreats hbefore]
  simp [hrest, hbefore']

/-- The two-beat rule. From every table and at every setting of flags, a call ends; a complete call
meets its contract, and that of a quiet call when no flag is set during it; and of two complete
calls in a row, the second one finds those clients dead, of the ones that were in their slots all
the time, whose flags have not been set since the first one. -/
theorem mcmchHeartbeatCall_twoBeats (flag : AliveFlag Client) (state : BeatState Client)
    (hlen : 8 * state.broadcast.bitmapLength < 2 ^ 63) :
    (∀ during config, BeatRun flag state .idle (((), BeatEvent.called) :: during) config →
      ((), .returned) ∉ during →
      during.countP (fun entry ↦ entry.2.ofCall) ≤ 2 * (8 * state.broadcast.bitmapLength)) ∧
    (∀ during config,
      BeatRun flag state .idle
        (((), BeatEvent.called) :: during ++ [((), BeatEvent.returned)]) config →
      ((), .returned) ∉ during →
      CallContract flag state during config.shared ∧
        ((∀ slot, ((), .flagged slot) ∉ during) → QuietContract flag state config.shared)) ∧
    ∀ first between second config,
      BeatRun flag state .idle
        (((), BeatEvent.called) :: first ++ [((), BeatEvent.returned)] ++ between ++
          (((), BeatEvent.called) :: second ++ [((), BeatEvent.returned)])) config →
      ((), .returned) ∉ first → ((), .called) ∉ between → ((), .returned) ∉ second →
      ∀ slot, occupied state slot = true → ((), .joined slot) ∉ between →
        ((), .left slot) ∉ between → TwoBeats slot first between second := by
  refine ⟨fun during config hrun hduring ↦ ?_, fun during config hrun hduring ↦ ?_, ?_⟩
  · obtain ⟨position, hprogress⟩ := progress_of_called hlen hrun hduring
    exact hprogress.steps.trans (Nat.mul_le_mul_left 2 hprogress.position_le)
  · obtain ⟨-, hcontract⟩ := contract_of_returned hlen hrun hduring
    exact ⟨hcontract, hcontract.quiet⟩
  · intro first between second config hrun hfirst hbetween hsecond slot hoccupied hjoined hleft
    obtain ⟨state₂, stage₂, huntil, hlast⟩ := beatRun_split hrun
    obtain ⟨state₁, stage₁, hcall, hmiddle⟩ := beatRun_split huntil
    obtain ⟨rfl, hcontract⟩ := contract_of_returned hlen hcall hfirst
    obtain ⟨rfl, hlength, hslots⟩ := between_of_run hmiddle hbetween
    obtain ⟨hcleared, hkept⟩ := hslots slot
    obtain ⟨hrecord, hstays⟩ := hkept hjoined
    have hlength₁ : state₁.broadcast.bitmapLength = state.broadcast.bitmapLength := by
      rw [hcontract.rest]
    have hlen₂ : 8 * state₂.broadcast.bitmapLength < 2 ^ 63 := by
      rwa [show state₂.broadcast.bitmapLength = _ from hlength, hlength₁]
    obtain ⟨-, hcontract'⟩ := contract_of_returned hlen₂ hlast hsecond
    have hoccupied₁ : occupied state₁ slot = occupied state slot := by
      rw [occupied, hcontract.rest, occupied]
    exact twoBeats_of_contracts hcontract hcleared hrecord hcontract' hoccupied
      ((hstays hleft).trans (hoccupied₁.trans hoccupied))

end Beats

/-- A client that is its alive flag. -/
def boolFlag : AliveFlag Bool := ⟨id, fun _ ↦ false, fun _ ↦ true, fun _ ↦ rfl, fun _ ↦ rfl⟩

/-- A table whose slots zero and one are occupied by clients that are alive, with no marks. -/
def twoAlive : BeatState Bool := ⟨⟨8, 1, fun _ ↦ 3#8, 4096, fun _ ↦ true⟩, fun _ ↦ 0#8⟩

/-- Between two calls the first client shows itself and the second one does not: the second call
finds the second client dead. -/
theorem mcmchHeartbeatCall_twoBeats_two :
    ∃ config : Config Unit (BeatState Bool) CallStage,
      BeatRun boolFlag twoAlive .idle
        (((), BeatEvent.called) :: [((), BeatEvent.tested 0 true), ((), BeatEvent.cleared 0),
            ((), BeatEvent.tested 1 true), ((), BeatEvent.cleared 1)] ++
          [((), BeatEvent.returned)] ++ [((), BeatEvent.flagged 0)] ++
        (((), BeatEvent.called) :: [((), BeatEvent.tested 0 true), ((), BeatEvent.cleared 0),
          ((), BeatEvent.tested 1 false)] ++ [((), BeatEvent.returned)])) config ∧
      bit config.shared.result 1 = true ∧
      TwoBeats 1 [((), .tested 0 true), ((), .cleared 0), ((), .tested 1 true), ((), .cleared 1)]
        [((), .flagged 0)] [((), .tested 0 true), ((), .cleared 0), ((), .tested 1 false)] := by
  obtain ⟨config, hrun, hmarked⟩ := exists_run_of_play (beatMachine boolFlag) anyStep
    (⟨twoAlive, fun _ ↦ .idle⟩ : Config Unit (BeatState Bool) CallStage)
    (List.replicate 6 ((), .advance) ++ ((), .flag 0) :: List.replicate 5 ((), .advance))
    (fun config ↦ bit config.shared.result 1)
    [((), .called), ((), .tested 0 true), ((), .cleared 0), ((), .tested 1 true),
      ((), .cleared 1), ((), .returned), ((), .flagged 0), ((), .called), ((), .tested 0 true),
      ((), .cleared 0), ((), .tested 1 false), ((), .returned)]
    true (by decide +kernel)
  obtain ⟨-, -, hbeats⟩ := mcmchHeartbeatCall_twoBeats boolFlag twoAlive (by decide)
  exact ⟨config, hrun, hmarked, hbeats _ _ _ config hrun (by decide) (by decide) (by decide) 1
    (by decide) (by decide) (by decide)⟩

end Mcmp.Server.HeartbeatCall
