import Mcmp.Foundation.Interleaving
import Mcmp.Utilities.AtomicBitmap
import Mcmp.Utilities.Bitmap
import Mcmp.Utilities.BitmapScan

/-!
# The lock registry

`mcmchLockCreate` and `mcmchLockDestroy` of lock.c. The registry is a static array of 64 entries of
64 bytes, one page, and a bitmap of 8 bytes that says which entries are taken. The handle of a lock
is the address of its entry. The mutex inside an entry is not modelled: neither function reads it.

Creating a lock takes the lowest free entry. Destroying one maps the handle back to an entry with
the operands of the subtraction exchanged, `registries - lock`, which is the entry with its sign
changed; the monitors, which have a registry of the same kind, subtract the other way round. So only
the entry zero is ever freed. `lockContract_iff` says that the bitmap and the live locks agree in
exactly those runs in which no other lock is destroyed.
-/

set_option autoImplicit false
set_option relaxedAutoImplicit false

namespace Mcmp.Routines.Lock

open Foundation.ByteBits Foundation.Interleaving Utilities

/-! ### The registry -/

/-- `REGISTRIES_STATIC_SIZE`, the entries of a page. -/
def registriesStaticSize : ℕ := 4096 / 64

/-- `SLOTS_STATIC_SIZE`. -/
def slotsStaticSize : ℕ := registriesStaticSize / 8

/-- Where the two static arrays are. They are objects of the program, so they end inside the address
space. -/
structure Statics where
  registries : ℕ
  slots : ℕ
  registries_fit : registries + 64 * registriesStaticSize < 2 ^ 64
  slots_fit : slots + slotsStaticSize < 2 ^ 64

variable (statics : Statics)

/-- `registries + slot`, the handle of an entry. -/
def Statics.entry (slot : ℕ) : ℕ := statics.registries + 64 * slot

/-- The loop of `mcmchLockCreate`. -/
def createTries : (tries : ℕ) → ByteMemory → Mcmpst × Option ℕ × ByteMemory
  | 0, memory => (.overflow, none, memory)
  | tries + 1, memory =>
    let slot := (BitmapScan.mcmpAtomicBitmapNextAvaibleBit
      (fun _ ↦ bytesFrom memory statics.slots) 0 slotsStaticSize).result
    if slot = -1 then (.overflow, none, memory)
    else
      let (status, memory) :=
        AtomicBitmap.callAlone memory (.tryEnableBit (8 * statics.slots + slot.toNat))
      if status = some .success then (.success, some (statics.entry slot.toNat), memory)
      else createTries tries memory

/-- Returns a status, the handle that is stored through the first parameter on success, and the
memory. A registry other than the static one is refused. -/
def mcmchLockCreate (reg : ℕ) (memory : ByteMemory) : Mcmpst × Option ℕ × ByteMemory :=
  if reg ≠ 0 then (.notImplemented, none, memory) else createTries statics 100 memory

/-- The difference of two pointers to entries is a difference of addresses that is shifted to the
right, so that it is rounded down. -/
def mcmchLockDestroy (lock : ℕ) (memory : ByteMemory) : Mcmpst × ByteMemory :=
  if ¬(lock ≥ statics.registries ∧ lock < statics.registries + 64 * registriesStaticSize) then
    (.notImplemented, memory)
  else
    let slot : ℤ := ((statics.registries : ℤ) - lock) / 64
    (.success, Bitmap.mcmpBitmapDisableBit memory statics.slots slot)

/-! ### Its users -/

/-- A call of a user. -/
inductive LockCommand
  | create
  | destroy (lock : ℕ)
  deriving DecidableEq, Repr

/-- What a call returns. -/
inductive LockEvent
  | created (lock : ℕ)
  | refused (status : Mcmpst)
  | destroyed (lock : ℕ) (status : Mcmpst)
  deriving DecidableEq, Repr

/-- A thread that calls the two functions, with the static registry. -/
def lockMachine : Machine LockCommand ByteMemory Unit LockEvent
  | .create, memory, _ =>
    match mcmchLockCreate statics 0 memory with
    | (_, some lock, memory) => some (.created lock, memory, ())
    | (status, none, memory) => some (.refused status, memory, ())
  | .destroy lock, memory, _ =>
    let (status, memory) := mcmchLockDestroy statics lock memory
    some (.destroyed lock status, memory, ())

/-- A handle is returned by a creation. -/
def Created (lock : ℕ) (_ : Unit) : LockEvent → Prop
  | .created other => other = lock
  | _ => False

/-- A handle is destroyed. -/
def Destroyed (lock : ℕ) (_ : Unit) : LockEvent → Prop
  | .destroyed other _ => other = lock
  | _ => False

instance (lock : ℕ) : ∀ (thread : Unit) (event : LockEvent), Decidable (Created lock thread event)
  | _, .created other => inferInstanceAs (Decidable (other = lock))
  | _, .refused _ => isFalse not_false
  | _, .destroyed _ _ => isFalse not_false

instance (lock : ℕ) :
    ∀ (thread : Unit) (event : LockEvent), Decidable (Destroyed lock thread event)
  | _, .created _ => isFalse not_false
  | _, .refused _ => isFalse not_false
  | _, .destroyed other _ => inferInstanceAs (Decidable (other = lock))

/-- A lock is live: it was created and has not been destroyed since. -/
def Live (history : List (Unit × LockEvent)) (lock : ℕ) : Prop :=
  Since history (Created lock) (Destroyed lock)

instance (history : List (Unit × LockEvent)) (lock : ℕ) : Decidable (Live history lock) :=
  inferInstanceAs (Decidable (Since history (Created lock) (Destroyed lock)))

/-- Only live locks are destroyed. -/
def DestroysLive : Guard Unit ByteMemory Unit LockEvent := fun history _ _ event ↦
  match event with
  | .destroyed lock _ => Live history lock
  | _ => True

instance (history : List (Unit × LockEvent)) (config : Config Unit ByteMemory Unit) (thread : Unit)
    (event : LockEvent) : Decidable (DestroysLive history config thread event) := by
  unfold DestroysLive
  split <;> infer_instance

/-- The runs of the users of a registry from a memory. -/
abbrev LockRun (memory : ByteMemory) :=
  Run (lockMachine statics).program DestroysLive ⟨memory, fun _ ↦ ()⟩

/-- The bit of an entry. -/
def taken (memory : ByteMemory) (slot : ℕ) : Bool := bit memory (8 * statics.slots + slot)

/-- The bits that are set are those of the live locks, and every live lock is an entry. -/
structure Exact (history : List (Unit × LockEvent)) (memory : ByteMemory) : Prop where
  taken_iff : ∀ slot < registriesStaticSize,
    taken statics memory slot = true ↔ Live history (statics.entry slot)
  entry : ∀ lock, Live history lock → ∃ slot < registriesStaticSize, lock = statics.entry slot

/-- What the users of the registry may expect of a run. -/
structure LockContract (memory : ByteMemory) (history : List (Unit × LockEvent)) : Prop where
  exact : ∀ before after config, history = before ++ after → LockRun statics memory before config →
    Exact statics before config.shared
  created_fresh : ∀ before thread lock after,
    history = before ++ (thread, LockEvent.created lock) :: after → ¬ Live before lock
  refused_full : ∀ before thread status after,
    history = before ++ (thread, LockEvent.refused status) :: after →
      status = .overflow ∧ ∀ slot < registriesStaticSize, Live before (statics.entry slot)
  destroyed_own : ∀ before thread lock status after config config',
    history = before ++ (thread, LockEvent.destroyed lock status) :: after →
      LockRun statics memory before config →
      LockRun statics memory (before ++ [(thread, LockEvent.destroyed lock status)]) config' →
      status = .success ∧ ∀ slot < registriesStaticSize,
        taken statics config'.shared slot = true ↔
          taken statics config.shared slot = true ∧ statics.entry slot ≠ lock

/-! ### What the two functions do -/

section Calls

variable {statics : Statics} {memory : ByteMemory}

/-- A creation finds every entry taken, or takes the lowest free one. Without another thread its
first try succeeds. -/
theorem createTries_cases (statics : Statics) (tries : ℕ) (memory : ByteMemory) :
    createTries statics (tries + 1) memory = (.overflow, none, memory) ∧
        (∀ slot < registriesStaticSize, taken statics memory slot = true) ∨
      ∃ slot < registriesStaticSize, taken statics memory slot = false ∧
        createTries statics (tries + 1) memory =
          (.success, some (statics.entry slot), setBit memory (8 * statics.slots + slot)) := by
  have hscan := BitmapScan.nextBit_avaible_cases (bytesFrom memory statics.slots)
    (show 8 ≤ 64 by decide) (show 8 * slotsStaticSize < 2 ^ 63 by decide)
  simp only [bit_bytesFrom] at hscan
  rw [createTries, BitmapScan.mcmpAtomicBitmapNextAvaibleBit]
  rcases hscan with ⟨hresult, hall⟩ | ⟨slot, hslot, hresult, hclear, -⟩
  · refine Or.inl ⟨?_, hall⟩
    simp only [hresult, if_true]
  · have hfound : ¬ ((slot : ℤ) = -1) := by omega
    refine Or.inr ⟨slot, hslot, hclear, ?_⟩
    simp only [hresult, if_neg hfound, Int.toNat_natCast,
      AtomicBitmap.callAlone_tryEnableBit hclear, if_true]

/-- A destruction of an entry succeeds, and frees entry zero only. -/
theorem mcmchLockDestroy_entry (statics : Statics) (memory : ByteMemory) {slot : ℕ}
    (hslot : slot < registriesStaticSize) :
    (mcmchLockDestroy statics (statics.entry slot) memory).1 = .success ∧
      ∀ other < registriesStaticSize,
        taken statics (mcmchLockDestroy statics (statics.entry slot) memory).2 other =
          (taken statics memory other && !decide (other = slot ∧ slot = 0)) := by
  have hinside : ¬¬(statics.entry slot ≥ statics.registries ∧
      statics.entry slot < statics.registries + 64 * registriesStaticSize) := by
    unfold Statics.entry
    omega
  have hslot' : ((statics.registries : ℤ) - statics.entry slot) / 64 = -(slot : ℤ) := by
    unfold Statics.entry
    omega
  have hcall : mcmchLockDestroy statics (statics.entry slot) memory =
      (.success, Bitmap.mcmpBitmapDisableBit memory statics.slots (-(slot : ℤ))) := by
    simp only [mcmchLockDestroy, if_neg hinside, hslot']
  rw [hcall]
  refine ⟨rfl, fun other hother ↦ ?_⟩
  rw [taken, taken]
  rcases Nat.eq_zero_or_pos slot with rfl | hpos
  · have hfits : statics.slots + 0 / 8 < 2 ^ 64 :=
      (Nat.le_add_right _ _).trans_lt statics.slots_fit
    have hfree : Bitmap.mcmpBitmapDisableBit memory statics.slots (-(0 : ℕ)) =
        clearBit memory (8 * statics.slots + 0) := Bitmap.mcmpBitmapDisableBit_natCast hfits
    rw [hfree, bit_clearBit]
    simp
  · have hbyte : slot / 8 + slotsStaticSize ≤ 2 ^ 64 := by
      have hentries : registriesStaticSize = 64 := rfl
      have hbytes : slotsStaticSize = 8 := rfl
      omega
    rw [Bitmap.bit_mcmpBitmapDisableBit_neg memory hpos hbyte hother]
    simp [hpos.ne']

/-- A step of a user. -/
theorem lockStep_cases {thread thread' : Unit} {event : LockEvent} {memory' : ByteMemory}
    (hstep : (lockMachine statics).program memory thread event memory' thread') :
    (event = .refused .overflow ∧ memory' = memory ∧
      ∀ slot < registriesStaticSize, taken statics memory slot = true) ∨
    (∃ slot < registriesStaticSize, event = .created (statics.entry slot) ∧
      taken statics memory slot = false ∧ memory' = setBit memory (8 * statics.slots + slot)) ∨
    ∃ lock, event = .destroyed lock (mcmchLockDestroy statics lock memory).1 ∧
      memory' = (mcmchLockDestroy statics lock memory).2 := by
  obtain ⟨command, hcommand⟩ := hstep
  cases command with
  | create =>
    rcases createTries_cases statics 99 memory with ⟨hcreate, hall⟩ | ⟨slot, hslot, hclear, hcreate⟩
    · have hresult : mcmchLockCreate statics 0 memory = (.overflow, none, memory) := hcreate
      simp only [lockMachine, hresult, Option.some.injEq, Prod.mk.injEq] at hcommand
      obtain ⟨rfl, rfl, -⟩ := hcommand
      exact Or.inl ⟨rfl, rfl, hall⟩
    · have hresult : mcmchLockCreate statics 0 memory =
          (.success, some (statics.entry slot), setBit memory (8 * statics.slots + slot)) := hcreate
      simp only [lockMachine, hresult, Option.some.injEq, Prod.mk.injEq] at hcommand
      obtain ⟨rfl, rfl, -⟩ := hcommand
      exact Or.inr (Or.inl ⟨slot, hslot, rfl, hclear, rfl⟩)
  | destroy lock =>
    simp only [lockMachine, Option.some.injEq, Prod.mk.injEq] at hcommand
    obtain ⟨rfl, rfl, -⟩ := hcommand
    exact Or.inr (Or.inr ⟨lock, rfl, rfl⟩)

end Calls

/-! ### The bits and the live locks -/

section Runs

variable {statics : Statics} {memory : ByteMemory} {history : List (Unit × LockEvent)}
  {config : Config Unit ByteMemory Unit} {thread : Unit} {lock slot other : ℕ} {status : Mcmpst}

theorem Statics.entry_inj : statics.entry slot = statics.entry other ↔ slot = other := by
  unfold Statics.entry
  omega

theorem live_created :
    Live (history ++ [(thread, .created other)]) lock ↔ other = lock ∨ Live history lock := by
  apply (since_concat ..).trans
  exact or_congr Iff.rfl (and_iff_left not_false)

theorem live_refused :
    Live (history ++ [(thread, .refused status)]) lock ↔ Live history lock := by
  apply (since_concat ..).trans
  exact (or_iff_right not_false).trans (and_iff_left not_false)

theorem live_destroyed :
    Live (history ++ [(thread, .destroyed other status)]) lock ↔
      Live history lock ∧ other ≠ lock :=
  (since_concat ..).trans (or_iff_right not_false)

/-- A step keeps bits and live locks in agreement, unless it destroys a lock other than that of
entry zero. -/
theorem Exact.step {event : LockEvent} {memory' : ByteMemory} {thread' : Unit}
    (h : Exact statics history memory)
    (hlive : ∀ lock status, event = .destroyed lock status → Live history lock)
    (hzero : ∀ lock status, event = .destroyed lock status → lock = statics.registries)
    (hstep : (lockMachine statics).program memory thread event memory' thread') :
    Exact statics (history ++ [(thread, event)]) memory' := by
  rcases lockStep_cases hstep with ⟨rfl, rfl, -⟩ | ⟨slot, hslot, rfl, hclear, rfl⟩ |
    ⟨lock, rfl, rfl⟩
  · exact ⟨fun slot hslot ↦ (h.taken_iff slot hslot).trans live_refused.symm,
      fun lock hlock ↦ h.entry lock (live_refused.mp hlock)⟩
  · refine ⟨fun other hother ↦ ?_, fun lock hlock ↦ ?_⟩
    · have hbit : taken statics (setBit memory (8 * statics.slots + slot)) other =
          (taken statics memory other || decide (other = slot)) := by
        rw [taken, bit_setBit, taken]
        simp
      rw [hbit, Bool.or_eq_true, h.taken_iff other hother, live_created, decide_eq_true_eq,
        Statics.entry_inj, or_comm, eq_comm]
    · rcases live_created.mp hlock with rfl | hlock
      · exact ⟨slot, hslot, rfl⟩
      · exact h.entry lock hlock
  · obtain ⟨slot, hslot, rfl⟩ := h.entry lock (hlive _ _ rfl)
    have hfirst : slot = 0 := by
      have hentry := hzero _ _ rfl
      unfold Statics.entry at hentry
      omega
    obtain ⟨-, hbits⟩ := mcmchLockDestroy_entry statics memory hslot
    refine ⟨fun other hother ↦ ?_, fun lock hlock ↦ h.entry lock (live_destroyed.mp hlock).1⟩
    rw [hbits other hother, Bool.and_eq_true, h.taken_iff other hother, live_destroyed,
      Ne, Statics.entry_inj]
    simp only [hfirst, and_true, Bool.not_eq_true', decide_eq_false_iff_not]
    exact and_congr_right fun _ ↦ not_congr eq_comm

/-- The registry agrees with its live locks as long as only entry zero is freed. -/
theorem exact_of_run (hempty : ∀ slot < registriesStaticSize, taken statics memory slot = false)
    (hrun : LockRun statics memory history config)
    (hzero : ∀ thread lock status, (thread, .destroyed lock status) ∈ history →
      lock = statics.registries) :
    Exact statics history config.shared := by
  refine Run.invariant (fun history config ↦
    (∀ thread lock status, (thread, .destroyed lock status) ∈ history →
      lock = statics.registries) → Exact statics history config.shared) ?_ ?_ hrun hzero
  · intro _
    refine ⟨fun slot hslot ↦ ?_, fun lock hlock ↦ absurd hlock (not_since_nil _ _)⟩
    simp only [hempty slot hslot, Bool.false_eq_true, false_iff]
    exact not_since_nil _ _
  · intro history config thread event memory' thread' _ ih hguard hstep hzero
    refine (ih fun thread lock status hmem ↦ hzero thread lock status (by simp [hmem])).step ?_ ?_
      hstep
    · rintro lock status rfl
      exact hguard
    · rintro lock status rfl
      exact hzero thread lock status (by simp)

/-- Where bits and live locks agree at every moment of a run, creations return entries that are not
live, or find all entries live, and destructions free their own entries. -/
theorem LockContract.of_exact (hrun : LockRun statics memory history config)
    (hexact : ∀ before after config, history = before ++ after →
      LockRun statics memory before config → Exact statics before config.shared) :
    LockContract statics memory history := by
  refine ⟨hexact, ?_, ?_, ?_⟩
  · rintro before thread lock after rfl
    obtain ⟨middle, memory', thread', hbefore, -, hstep⟩ := hrun.cut
    have hagree := hexact before _ middle rfl hbefore
    rcases lockStep_cases hstep with ⟨hevent, -⟩ | ⟨slot, hslot, hevent, hclear, -⟩ |
      ⟨_, hevent, -⟩
    · exact absurd hevent (by simp)
    · obtain rfl := (LockEvent.created.injEq ..).mp hevent
      rw [← hagree.taken_iff slot hslot, hclear]
      exact Bool.false_ne_true
    · exact absurd hevent (by simp)
  · rintro before thread status after rfl
    obtain ⟨middle, memory', thread', hbefore, -, hstep⟩ := hrun.cut
    have hagree := hexact before _ middle rfl hbefore
    rcases lockStep_cases hstep with ⟨hevent, -, hall⟩ | ⟨_, -, hevent, -⟩ | ⟨_, hevent, -⟩
    · exact ⟨(LockEvent.refused.injEq ..).mp hevent,
        fun slot hslot ↦ (hagree.taken_iff slot hslot).mp (hall slot hslot)⟩
    · exact absurd hevent (by simp)
    · exact absurd hevent (by simp)
  · rintro before thread lock status after config config' rfl hbefore hafter
    obtain ⟨middle, memory', thread', hmiddle, hlive, hstep⟩ := hrun.cut
    have hagree := hexact before _ config rfl hbefore
    have hagree' := hexact (before ++ [(thread, .destroyed lock status)]) after config'
      (by simp) hafter
    obtain ⟨slot, hslot, rfl⟩ := hagree.entry lock hlive
    refine ⟨?_, fun other hother ↦ ?_⟩
    · rcases lockStep_cases hstep with ⟨hevent, -⟩ | ⟨_, -, hevent, -⟩ | ⟨_, hevent, -⟩
      · exact absurd hevent (by simp)
      · exact absurd hevent (by simp)
      · obtain ⟨rfl, rfl⟩ := (LockEvent.destroyed.injEq ..).mp hevent
        exact (mcmchLockDestroy_entry statics _ hslot).1
    · rw [hagree'.taken_iff other hother, hagree.taken_iff other hother, live_destroyed, ne_comm]

/-- From the zeroed registry on, bits and live locks agree at every moment of a run, every creation
returns an entry that is not live or finds all entries live, and every destruction frees its own
entry, if and only if no lock other than that of entry zero is destroyed in the run. -/
theorem lockContract_iff (hempty : ∀ slot < registriesStaticSize, taken statics memory slot = false)
    (hrun : LockRun statics memory history config) :
    LockContract statics memory history ↔
      ∀ thread lock status, (thread, .destroyed lock status) ∈ history →
        lock = statics.registries := by
  constructor
  · intro hcontract thread lock status hmem
    obtain ⟨before, after, rfl⟩ := List.append_of_mem hmem
    obtain ⟨middle, memory', thread', hbefore, hlive, hstep⟩ := hrun.cut
    have hexact := hcontract.exact before _ middle rfl hbefore
    obtain ⟨slot, hslot, rfl⟩ := hexact.entry lock hlive
    obtain ⟨-, hown⟩ := hcontract.destroyed_own before thread _ status after middle _ rfl hbefore
      (hbefore.step hlive hstep)
    have hkept : taken statics memory' slot =
        (taken statics middle.shared slot && !decide (slot = slot ∧ slot = 0)) := by
      rcases lockStep_cases hstep with ⟨hevent, -⟩ | ⟨_, -, hevent, -⟩ | ⟨_, hevent, rfl⟩
      · exact absurd hevent (by simp)
      · exact absurd hevent (by simp)
      · obtain ⟨rfl, -⟩ := (LockEvent.destroyed.injEq ..).mp hevent
        exact (mcmchLockDestroy_entry statics _ hslot).2 slot hslot
    have hbefore' := (hexact.taken_iff slot hslot).mpr hlive
    have hafter : ¬ taken statics memory' slot = true := fun hset ↦
      ((hown slot hslot).mp hset).2 rfl
    rw [hkept, hbefore'] at hafter
    have hfirst : slot = 0 := by simpa using hafter
    rw [hfirst]
    rfl
  · intro hzero
    apply LockContract.of_exact hrun
    rintro before after config rfl hbefore
    apply exact_of_run hempty hbefore
    intro thread lock status hmem
    exact hzero thread lock status (List.mem_append_left _ hmem)

end Runs

/-- A registry at address 4096, with its bitmap behind it. -/
def lowStatics : Statics := ⟨4096, 8192, by decide, by decide⟩

/-- Two locks are created, the first one is destroyed and created again. -/
theorem lockContract_iff_first_entry :
    ∃ (history : List (Unit × LockEvent)) (config : Config Unit ByteMemory Unit),
      LockRun lowStatics (fun _ ↦ 0#8) history config ∧
        ((), .destroyed 4096 .success) ∈ history ∧
        LockContract lowStatics (fun _ ↦ 0#8) history := by
  obtain ⟨config, hrun, -⟩ := exists_run_of_play (lockMachine lowStatics) DestroysLive
    ⟨fun _ ↦ 0#8, fun _ ↦ ()⟩
    [((), .create), ((), .create), ((), .destroy 4096), ((), .create)]
    (fun config ↦ taken lowStatics config.shared 0)
    [((), .created 4096), ((), .created 4160), ((), .destroyed 4096 .success), ((), .created 4096)]
    true (by decide +kernel)
  refine ⟨_, config, hrun, by decide, (lockContract_iff (by decide) hrun).mpr ?_⟩
  intro thread lock status hmem
  simp only [List.mem_cons, Prod.mk.injEq, reduceCtorEq, LockEvent.destroyed.injEq, and_false,
    List.not_mem_nil, or_false, false_or] at hmem
  exact hmem.2.1

/-- Two locks are created and the second one is destroyed: its bit stays set. -/
theorem not_lockContract_second_entry :
    ∃ (history : List (Unit × LockEvent)) (config : Config Unit ByteMemory Unit),
      LockRun lowStatics (fun _ ↦ 0#8) history config ∧
        history = [((), .created 4096), ((), .created 4160), ((), .destroyed 4160 .success)] ∧
        taken lowStatics config.shared 1 = true ∧
        ¬ LockContract lowStatics (fun _ ↦ 0#8) history := by
  obtain ⟨config, hrun, htaken⟩ := exists_run_of_play (lockMachine lowStatics) DestroysLive
    ⟨fun _ ↦ 0#8, fun _ ↦ ()⟩
    [((), .create), ((), .create), ((), .destroy 4160)]
    (fun config ↦ taken lowStatics config.shared 1)
    [((), .created 4096), ((), .created 4160), ((), .destroyed 4160 .success)]
    true (by decide +kernel)
  refine ⟨_, config, hrun, rfl, htaken, fun hcontract ↦ ?_⟩
  have hlive := ((hcontract.exact _ [] config (by simp) hrun).taken_iff 1 (by decide)).mp htaken
  exact absurd hlive (by decide)

end Mcmp.Routines.Lock
