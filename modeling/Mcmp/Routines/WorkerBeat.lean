import Mcmp.Utilities.AtomicBitmap
import Mcmp.Utilities.BitmapLoop
import Mcmp.Utilities.SetQueueAlone

/-!
# One beat of the worker executor

`__priv__mcmch_worker_monitor_beat` of worker.c and the clean-up pass that it calls, while no other
thread moves, with the set queue that the executor takes its tasks from. Both are loops over the
bitmap of the sub-monitors. Nothing can go wrong in the clean-up: a release of a bit succeeds at the
first try. The loop that hands out the tasks goes over the sub-monitors whose bit is clear. It sends
those that have a task and have not started it their signal again, gives the others a task from the
queue, and is left when the queue gives none.

Leaving the loop leaves the sub-monitors behind unvisited, those that wait for their signal to be
repeated with the others. Which of them are reached is a matter of how many idle sub-monitors come
before them and how many tasks the queue has (`monitorBeat_rewakes_iff`).
-/

set_option autoImplicit false
set_option relaxedAutoImplicit false

namespace Mcmp.Routines.WorkerBeat

open Foundation.ByteBits Foundation.ScanLoop Utilities Utilities.BitmapLoop

/-! ### The beat -/

/-- `McmchWorkerExecutorHeader` with its queue, the bitmap, and the records `McmchWorkerMonitor`. -/
structure McmchWorkerExecutor where
  bitmapLength : ℕ
  length : ℕ
  failstry : ℤ
  bitmap : ByteMemory
  taskdata : ℕ → ℕ
  finished : ℕ → ℤ
  queue : SetQueue.McmpSetQueue

/-- `__priv__mcmch_worker_monitor_try_disable_bit`: whether one of the tries succeeded, and the
bitmap. -/
def tryDisableBit (monitor : ℕ) : (maxtries : ℕ) → ByteMemory → Bool × ByteMemory
  | 0, bitmap => (false, bitmap)
  | maxtries + 1, bitmap =>
    match AtomicBitmap.callAlone bitmap (.tryDisableBit monitor) with
    | (some .success, bitmap) => (true, bitmap)
    | (_, bitmap) => tryDisableBit monitor maxtries bitmap

/-- One iteration of the clean-up: releases the bit of a monitor that has finished. -/
def cleanMonitor (executor : McmchWorkerExecutor) (bitidx : ℕ) :
    Outcome McmchWorkerExecutor Unit :=
  if executor.finished bitidx = 0 then .next executor
  else
    match tryDisableBit bitidx 10 executor.bitmap with
    | (true, bitmap) => .next { executor with bitmap := bitmap }
    | (false, bitmap) => .stop { executor with bitmap := bitmap, failstry := 1 } ()

/-- `__priv__mcmch_worker_monitor_run_cleanup_monitors`. -/
def runCleanupMonitors (executor : McmchWorkerExecutor) (fuel : ℕ) : Option McmchWorkerExecutor :=
  (forOccupiedBelow (fun state ↦ state.bitmap) executor.bitmapLength executor.length cleanMonitor
    fuel executor).map Prod.fst

/-- One iteration of the beat: repeats the signal of a monitor that has not started its task, or
takes a task for one that has finished and signals it. The state comes with the monitors pinged. -/
def beatMonitor (state : McmchWorkerExecutor × List ℕ) (bitidx : ℕ) :
    Outcome (McmchWorkerExecutor × List ℕ) Unit :=
  if state.1.finished bitidx = 0 then .next (state.1, state.2 ++ [bitidx])
  else
    match SetQueueAlone.callAlone state.1.queue .take with
    | (some (.success, some ind), queue) =>
      .next ({ state.1 with
        queue := queue
        taskdata := Function.update state.1.taskdata bitidx ind
        finished := Function.update state.1.finished bitidx 0 }, state.2 ++ [bitidx])
    | (_, queue) => .stop ({ state.1 with queue := queue }, state.2) ()

/-- `__priv__mcmch_worker_monitor_beat`: the executor after it and the monitors that it pinged, in
order, or nothing when the fuel runs out. -/
def monitorBeat (executor : McmchWorkerExecutor) (fuel : ℕ) :
    Option (McmchWorkerExecutor × List ℕ) :=
  let exchanged := { executor with failstry := 0 }
  let cleaned :=
    if executor.failstry ≠ 0 then runCleanupMonitors exchanged fuel else some exchanged
  cleaned.bind fun executor ↦
    (forAvaibleBelow (fun state ↦ state.1.bitmap) executor.bitmapLength executor.length beatMonitor
      fuel (executor, [])).map Prod.fst

/-! ### The clean-up -/

theorem tryDisableBit_eq (monitor maxtries : ℕ) (bitmap : ByteMemory) :
    tryDisableBit monitor (maxtries + 1) bitmap = (true, clearBit bitmap monitor) := by
  rw [tryDisableBit, AtomicBitmap.callAlone_tryDisableBit]

/-- What an iteration of the clean-up does. -/
def cleaned (executor : McmchWorkerExecutor) (bitidx : ℕ) : McmchWorkerExecutor :=
  if executor.finished bitidx = 0 then executor
  else { executor with bitmap := clearBit executor.bitmap bitidx }

theorem cleanMonitor_eq : cleanMonitor = fun executor bitidx ↦ .next (cleaned executor bitidx) := by
  funext executor bitidx
  unfold cleanMonitor cleaned
  split_ifs with hfinished
  · rfl
  · rw [tryDisableBit_eq]

/-- A pass over some monitors clears the bits of those that have finished. -/
theorem foldl_cleaned (monitors : List ℕ) :
    ∀ executor, ∃ bitmap, monitors.foldl cleaned executor = { executor with bitmap := bitmap } ∧
      ∀ i, bit bitmap i =
        (bit executor.bitmap i && !decide (i ∈ monitors ∧ executor.finished i ≠ 0)) := by
  induction monitors with
  | nil =>
    intro executor
    exact ⟨executor.bitmap, rfl, by simp⟩
  | cons monitor monitors ih =>
    intro executor
    obtain ⟨bitmap, heq, hbits⟩ := ih (cleaned executor monitor)
    by_cases hfinished : executor.finished monitor = 0
    · have hfirst : cleaned executor monitor = executor := if_pos hfinished
      rw [hfirst] at heq hbits
      refine ⟨bitmap, by rw [List.foldl_cons, hfirst, heq], fun i ↦ ?_⟩
      rw [hbits]
      rcases eq_or_ne i monitor with rfl | hne
      · simp [hfinished]
      · simp [hne]
    · have hfirst : cleaned executor monitor =
          { executor with bitmap := clearBit executor.bitmap monitor } := if_neg hfinished
      rw [hfirst] at heq hbits
      refine ⟨bitmap, by rw [List.foldl_cons, hfirst, heq], fun i ↦ ?_⟩
      rw [hbits]
      rcases eq_or_ne i monitor with rfl | hne
      · simp [hfinished]
      · simp [hne]

section Loops

variable {executor : McmchWorkerExecutor}

/-- The clean-up ends, and leaves set the bits of the monitors that have not finished. -/
theorem runCleanupMonitors_spec (hlen : 8 * executor.bitmapLength < 2 ^ 63)
    (hlength : executor.length ≤ 8 * executor.bitmapLength) :
    ∃ bitmap, (∀ fuel, executor.length < fuel →
        runCleanupMonitors executor fuel = some { executor with bitmap := bitmap }) ∧
      ∀ i < executor.length,
        bit bitmap i = (bit executor.bitmap i && decide (executor.finished i = 0)) := by
  have hscans := scans_below BitmapScan.occupied (show 8 ≤ 32 by decide)
    (fun state : McmchWorkerExecutor ↦ state.bitmap) hlen hlength
  have hkeeps : KeepsLater (fun (state : McmchWorkerExecutor) i ↦
      bit state.bitmap i == BitmapScan.occupied.sought) cleanMonitor executor.length := by
    intro state i state' _ hnext j hj
    rw [cleanMonitor_eq] at hnext
    obtain rfl := Outcome.next.inj hnext
    have hne : j ≠ i := by omega
    unfold cleaned
    split_ifs
    · rfl
    · simp [hne]
  obtain ⟨bitmap, hfold, hbits⟩ := foldl_cleaned ((List.range executor.length).filter fun i ↦
    bit executor.bitmap i == BitmapScan.occupied.sought) executor
  refine ⟨bitmap, fun fuel hfuel ↦ ?_, fun i hi ↦ ?_⟩
  · have hloop := scanLoop_eq_visit hscans hkeeps executor hfuel
    rw [cleanMonitor_eq, visit_next, hfold] at hloop
    rw [runCleanupMonitors, cleanMonitor_eq]
    exact congrArg (Option.map Prod.fst) hloop
  · rw [hbits]
    cases hset : bit executor.bitmap i with
    | false => rfl
    | true => simp [hi, hset, BitmapScan.occupied]

end Loops

/-! ### The tasks -/

/-- The first `count` Takes on a queue all deliver an index. -/
def Delivers : (count : ℕ) → SetQueue.McmpSetQueue → Prop
  | 0, _ => True
  | count + 1, queue =>
    (∃ ind, (SetQueueAlone.callAlone queue .take).1 = some (.success, some ind)) ∧
      Delivers count (SetQueueAlone.callAlone queue .take).2

/-- A queue that one thread has used delivers as many indices as it holds. -/
theorem delivers_iff {length : ℕ} (count : ℕ) :
    ∀ {queue : SetQueue.McmpSetQueue} {fifo : Foundation.SetFifo.BoundedFifo ℕ (length - 1)},
      SetQueueAlone.Represents length queue fifo →
        (Delivers count queue ↔ count ≤ queue.ringItems.length) := by
  induction count with
  | zero =>
    intro queue fifo _
    exact iff_of_true trivial (Nat.zero_le _)
  | succ count ih =>
    intro queue fifo hqueue
    obtain ⟨hanswer, hnext, -⟩ := hqueue.take_agree
    rw [Delivers, hanswer, hqueue.items]
    rcases SetQueueAlone.fifoCall_take_cases fifo with ⟨hnil, hfifo⟩ |
      ⟨ind, rest, fifo', hcons, hfifo, hrest⟩
    · simp [hfifo, hnil]
    · rw [hfifo] at hnext
      rw [ih hnext, hnext.items, hfifo, hcons, hrest]
      simp

/-- A monitor is idle: its bit is clear and it has finished. -/
def idle (executor : McmchWorkerExecutor) (monitor : ℕ) : Bool :=
  !bit executor.bitmap monitor && decide (executor.finished monitor ≠ 0)

/-- The number of idle monitors from one on and before another. -/
def idleBetween (executor : McmchWorkerExecutor) (first last : ℕ) : ℕ :=
  (List.range' first (last - first)).countP (idle executor)

theorem idleBetween_self (executor : McmchWorkerExecutor) (monitor : ℕ) :
    idleBetween executor monitor monitor = 0 := by
  simp [idleBetween]

theorem idleBetween_cons {executor : McmchWorkerExecutor} {first last : ℕ} (hlt : first < last) :
    idleBetween executor first last =
      idleBetween executor (first + 1) last + if idle executor first then 1 else 0 := by
  rw [idleBetween, show last - first = last - (first + 1) + 1 by omega, List.range'_succ,
    List.countP_cons, idleBetween]

theorem idleBetween_congr {executor executor' : McmchWorkerExecutor} {first last : ℕ}
    (hsame : ∀ j, first ≤ j → idle executor' j = idle executor j) :
    idleBetween executor' first last = idleBetween executor first last := by
  apply List.countP_congr
  intro j hj
  rw [hsame j (List.mem_range'_1.mp hj).1]

/-- What the rest of the loop of a beat does, from a monitor on. It keeps the bitmap; it leaves the
tasks that have not been started as they are, and adds only such as it signals; and of the monitors
that wait for their signal it reaches those for which the queue has enough tasks. -/
structure Beats (executor final : McmchWorkerExecutor) (pings finalPings : List ℕ)
    (cursor limit : ℕ) : Prop where
  bitmap : final.bitmap = executor.bitmap
  waiting : ∀ j, executor.finished j = 0 → final.finished j = 0
  assigned : ∀ j, final.finished j = 0 → executor.finished j = 0 ∨ j ∈ finalPings
  pinged : ∀ j ∈ pings, j ∈ finalPings
  reached : ∀ u, cursor ≤ u → u < limit → bit executor.bitmap u = false →
    executor.finished u = 0 → u ∉ pings →
      (u ∈ finalPings ↔ Delivers (idleBetween executor cursor u) executor.queue)

section Beat

variable {executor executor' final : McmchWorkerExecutor} {pings finalPings : List ℕ}
  {cursor limit : ℕ}

/-- A monitor whose bit is set is passed over. -/
theorem Beats.pass (h : Beats executor final pings finalPings (cursor + 1) limit)
    (hset : bit executor.bitmap cursor = true) :
    Beats executor final pings finalPings cursor limit := by
  refine ⟨h.bitmap, h.waiting, h.assigned, h.pinged, fun u hu hu' hclear hfinished hfresh ↦ ?_⟩
  have hne : cursor ≠ u := by
    rintro rfl
    rw [hset] at hclear
    exact Bool.noConfusion hclear
  have hbusy : idle executor cursor = false := by simp [idle, hset]
  rw [h.reached u (by omega) hu' hclear hfinished hfresh, idleBetween_cons (by omega : cursor < u),
    hbusy]
  rfl

/-- A monitor that is signalled has a task then, its old one or one from the queue. -/
theorem Beats.visit (h : Beats executor' final (pings ++ [cursor]) finalPings (cursor + 1) limit)
    (hbitmap : executor'.bitmap = executor.bitmap) (hcursor : executor'.finished cursor = 0)
    (hothers : ∀ j ≠ cursor, executor'.finished j = executor.finished j)
    (hqueue : ∀ n, Delivers (n + if idle executor cursor then 1 else 0) executor.queue ↔
      Delivers n executor'.queue) :
    Beats executor final pings finalPings cursor limit := by
  have hpinged : cursor ∈ finalPings := h.pinged cursor (by simp)
  refine ⟨h.bitmap.trans hbitmap, fun j hj ↦ ?_, fun j hj ↦ ?_,
    fun j hj ↦ h.pinged j (by simp [hj]), fun u hu hu' hclear hfinished hfresh ↦ ?_⟩
  · rcases eq_or_ne j cursor with rfl | hne
    · exact h.waiting j hcursor
    · exact h.waiting j ((hothers j hne).trans hj)
  · rcases eq_or_ne j cursor with rfl | hne
    · exact Or.inr hpinged
    · rw [← hothers j hne]
      exact h.assigned j hj
  · rcases eq_or_ne u cursor with rfl | hne
    · rw [idleBetween_self]
      exact iff_of_true hpinged trivial
    · have hsame : idleBetween executor' (cursor + 1) u = idleBetween executor (cursor + 1) u := by
        apply idleBetween_congr
        intro j hj
        rw [idle, idle, hbitmap, hothers j (by omega)]
      rw [h.reached u (by omega) hu' (hbitmap ▸ hclear) ((hothers u hne).trans hfinished)
        (by simp [hfresh, hne]), hsame, idleBetween_cons (by omega : cursor < u), hqueue]

/-- A beat that finds no task for an idle monitor reaches none of the later ones. -/
theorem beats_stop {queue : SetQueue.McmpSetQueue} (hidle : idle executor cursor = true)
    (hfails : ∀ ind, (SetQueueAlone.callAlone executor.queue .take).1 ≠ some (.success, some ind)) :
    Beats executor { executor with queue := queue } pings pings cursor limit := by
  refine ⟨rfl, fun j hj ↦ hj, fun j hj ↦ Or.inl hj, fun j hj ↦ hj,
    fun u hu _ _ hfinished hfresh ↦ iff_of_false hfresh fun hdelivers ↦ ?_⟩
  have hne : cursor ≠ u := by
    rintro rfl
    simp [idle, hfinished] at hidle
  rw [idleBetween_cons (by omega : cursor < u), hidle, if_pos rfl] at hdelivers
  obtain ⟨⟨ind, htake⟩, -⟩ := hdelivers
  exact hfails ind htake

end Beat

/-- An iteration at an idle monitor that gets a task. -/
theorem beatMonitor_take {state : McmchWorkerExecutor × List ℕ} {monitor ind : ℕ}
    (hfinished : state.1.finished monitor ≠ 0)
    (htake : (SetQueueAlone.callAlone state.1.queue .take).1 = some (.success, some ind)) :
    beatMonitor state monitor =
      .next ({ state.1 with
        queue := (SetQueueAlone.callAlone state.1.queue .take).2
        taskdata := Function.update state.1.taskdata monitor ind
        finished := Function.update state.1.finished monitor 0 }, state.2 ++ [monitor]) := by
  rw [beatMonitor, if_neg hfinished]
  generalize SetQueueAlone.callAlone state.1.queue .take = result at htake
  obtain ⟨answer, queue⟩ := result
  obtain rfl : answer = some (.success, some ind) := htake
  rfl

/-- An iteration at an idle monitor that gets none. -/
theorem beatMonitor_fails {state : McmchWorkerExecutor × List ℕ} {monitor : ℕ}
    (hfinished : state.1.finished monitor ≠ 0)
    (hfails : ∀ ind, (SetQueueAlone.callAlone state.1.queue .take).1 ≠ some (.success, some ind)) :
    beatMonitor state monitor =
      .stop ({ state.1 with queue := (SetQueueAlone.callAlone state.1.queue .take).2 },
        state.2) () := by
  rw [beatMonitor, if_neg hfinished]
  generalize SetQueueAlone.callAlone state.1.queue .take = result at hfails
  obtain ⟨answer, queue⟩ := result
  split
  · next ind _ hanswer => exact absurd (congrArg Prod.fst hanswer) (hfails ind)
  · next hanswer =>
    obtain ⟨-, rfl⟩ := Prod.mk.inj hanswer
    rfl

/-- The sub-monitors that a beat visits. -/
def sought (state : McmchWorkerExecutor × List ℕ) (i : ℕ) : Bool :=
  bit state.1.bitmap i == BitmapScan.avaible.sought

theorem beats_sweep (count : ℕ) :
    ∀ (executor : McmchWorkerExecutor) (pings : List ℕ) (cursor : ℕ),
      Beats executor (sweep sought beatMonitor count (executor, pings) cursor).1.1 pings
        (sweep sought beatMonitor count (executor, pings) cursor).1.2 cursor (cursor + count) := by
  induction count with
  | zero =>
    intro executor pings cursor
    refine ⟨rfl, fun j hj ↦ hj, fun j hj ↦ Or.inl hj, fun j hj ↦ hj, fun u hu hu' ↦ ?_⟩
    omega
  | succ count ih =>
    intro executor pings cursor
    have hlimit : cursor + (count + 1) = cursor + 1 + count := by omega
    rw [hlimit, sweep]
    cases hset : bit executor.bitmap cursor with
    | true =>
      have hpass : sought (executor, pings) cursor = false := by
        simp [sought, hset, BitmapScan.avaible]
      simp only [hpass, Bool.false_eq_true, if_false]
      exact (ih executor pings (cursor + 1)).pass hset
    | false =>
      have hvisit : sought (executor, pings) cursor = true := by
        simp [sought, hset, BitmapScan.avaible]
      simp only [hvisit, if_true]
      by_cases hfinished : executor.finished cursor = 0
      · -- the signal is repeated
        have hidle : idle executor cursor = false := by simp [idle, hfinished]
        have hbody : beatMonitor (executor, pings) cursor = .next (executor, pings ++ [cursor]) :=
          if_pos hfinished
        rw [hbody]
        exact (ih executor (pings ++ [cursor]) (cursor + 1)).visit rfl hfinished (fun _ _ ↦ rfl)
          fun n ↦ by simp [hidle]
      · have hidle : idle executor cursor = true := by simp [idle, hset, hfinished]
        by_cases htake : ∃ ind,
            (SetQueueAlone.callAlone executor.queue .take).1 = some (.success, some ind)
        · obtain ⟨ind, hind⟩ := htake
          rw [@beatMonitor_take (executor, pings) cursor ind hfinished hind]
          refine (ih _ (pings ++ [cursor]) (cursor + 1)).visit rfl (Function.update_self _ _ _)
            (fun j hne ↦ Function.update_of_ne hne _ _) fun n ↦ ?_
          rw [if_pos hidle]
          exact and_iff_right ⟨ind, hind⟩
        · have hfails := not_exists.mp htake
          rw [@beatMonitor_fails (executor, pings) cursor hfinished hfails]
          exact beats_stop hidle hfails

/-! ### A whole beat -/

/-- The number of idle monitors that come before one in a beat: those that have finished, and whose
bit is clear or is cleared by the clean-up pass that `failstry` asks for. -/
def idleBefore (executor : McmchWorkerExecutor) (monitor : ℕ) : ℕ :=
  (List.range monitor).countP fun j ↦ executor.finished j ≠ 0 ∧
    (bit executor.bitmap j = false ∨ executor.failstry ≠ 0)

/-- Every monitor that has a task and has not started it, as the beat leaves them, has been
signalled by the beat. -/
def Rewakes (length : ℕ) (final : McmchWorkerExecutor) (pings : List ℕ) : Prop :=
  ∀ u < length, bit final.bitmap u = false → final.finished u = 0 → u ∈ pings

/-- The executor that the loop of the beat starts with. -/
theorem exists_cleaned {executor : McmchWorkerExecutor} (hlen : 8 * executor.bitmapLength < 2 ^ 63)
    (hlength : executor.length ≤ 8 * executor.bitmapLength) :
    ∃ bitmap,
      (∀ fuel, executor.length < fuel →
        (if executor.failstry ≠ 0 then
            runCleanupMonitors { executor with failstry := 0 } fuel
          else some { executor with failstry := 0 }) =
          some { executor with failstry := 0, bitmap := bitmap }) ∧
      ∀ i < executor.length, bit bitmap i = (bit executor.bitmap i &&
        decide (executor.failstry = 0 ∨ executor.finished i = 0)) := by
  by_cases hfailstry : executor.failstry = 0
  · refine ⟨executor.bitmap, fun fuel _ ↦ ?_, fun i _ ↦ ?_⟩
    · rw [if_neg (not_not.mpr hfailstry)]
    · simp [hfailstry]
  · obtain ⟨bitmap, hclean, hbits⟩ :=
      @runCleanupMonitors_spec { executor with failstry := 0 } hlen hlength
    refine ⟨bitmap, fun fuel hfuel ↦ ?_, fun i hi ↦ ?_⟩
    · rw [if_pos hfailstry]
      exact hclean fuel hfuel
    · rw [hbits i hi]
      simp [hfailstry]

/-- A beat re-wakes every waiting task exactly when, for each monitor with a task that it has not
started, the queue has at least as many tasks as there are idle monitors before this one. -/
theorem monitorBeat_rewakes_iff {executor : McmchWorkerExecutor}
    (hbitmap : executor.bitmapLength = (executor.length + 7) / 8)
    (hlen : 8 * executor.bitmapLength < 2 ^ 63) :
    ∃ final pings, (∀ fuel, executor.length < fuel →
        monitorBeat executor fuel = some (final, pings)) ∧
      (Rewakes executor.length final pings ↔
        ∀ u < executor.length, bit executor.bitmap u = false → executor.finished u = 0 →
          Delivers (idleBefore executor u) executor.queue) := by
  have hlength : executor.length ≤ 8 * executor.bitmapLength := by omega
  obtain ⟨bitmap, hcleaned, hbits⟩ := exists_cleaned hlen hlength
  let start : McmchWorkerExecutor := { executor with failstry := 0, bitmap := bitmap }
  have hscans := scans_below BitmapScan.avaible (show 8 ≤ 64 by decide)
    (fun state : McmchWorkerExecutor × List ℕ ↦ state.1.bitmap) hlen hlength
  have hbeats := beats_sweep executor.length start [] 0
  have hloop : ∀ fuel, executor.length < fuel →
      forAvaibleBelow (fun state : McmchWorkerExecutor × List ℕ ↦ state.1.bitmap)
        start.bitmapLength start.length beatMonitor fuel (start, []) =
          some (sweep sought beatMonitor executor.length (start, []) 0) := by
    intro fuel hfuel
    exact scanLoop_eq_sweep hscans fuel (start, []) 0 hfuel
  generalize sweep sought beatMonitor executor.length (start, []) 0 = result at hbeats hloop
  obtain ⟨⟨final, pings⟩, left⟩ := result
  refine ⟨final, pings, fun fuel hfuel ↦ ?_, ?_⟩
  · simp only [monitorBeat, hcleaned fuel hfuel, Option.bind_some]
    exact congrArg (Option.map Prod.fst) (hloop fuel hfuel)
  have hcount : ∀ u < executor.length, idleBetween start 0 u = idleBefore executor u := by
    intro u hu
    rw [idleBetween, Nat.sub_zero, ← List.range_eq_range', idleBefore]
    apply List.countP_congr
    intro j hj
    have hbit : bit start.bitmap j = _ := hbits j ((List.mem_range.mp hj).trans hu)
    show idle start j = true ↔ _
    rw [idle, hbit]
    cases hset : bit executor.bitmap j with
    | false => simp [start]
    | true =>
      simp [start]
      tauto
  have hclear : ∀ u < executor.length, executor.finished u = 0 →
      bit start.bitmap u = bit executor.bitmap u := by
    intro u hu hfinished
    have hbit : bit start.bitmap u = _ := hbits u hu
    rw [hbit]
    simp [hfinished]
  have hreached : ∀ u < executor.length, bit executor.bitmap u = false →
      executor.finished u = 0 →
      (u ∈ pings ↔ Delivers (idleBefore executor u) executor.queue) := by
    intro u hu hunset hfinished
    rw [← hcount u hu]
    exact hbeats.reached u (Nat.zero_le u) (by omega) ((hclear u hu hfinished).trans hunset)
      hfinished (List.not_mem_nil)
  constructor
  · intro hrewakes u hu hunset hfinished
    rw [← hreached u hu hunset hfinished]
    apply hrewakes u hu _ (hbeats.waiting u hfinished)
    rw [hbeats.bitmap, hclear u hu hfinished, hunset]
  · intro hdelivers u hu hunset hfinished
    rcases hbeats.assigned u hfinished with hwaiting | hpinged
    · have hunset' : bit executor.bitmap u = false := by
        rw [← hclear u hu hwaiting, ← hbeats.bitmap, hunset]
      exact (hreached u hu hunset' hwaiting).mpr (hdelivers u hu hunset' hwaiting)
    · exact hpinged

/-- Two monitors of which the first is idle and the second has not started its task, over a queue of
length two. -/
def idleAndWaiting (queue : SetQueue.McmpSetQueue) : McmchWorkerExecutor where
  bitmapLength := 1
  length := 2
  failstry := 0
  bitmap := fun _ ↦ 0#8
  taskdata := fun _ ↦ 0
  finished := fun m ↦ if m = 0 then 1 else 0
  queue := queue

/-- With a task in the queue both monitors are signalled. -/
theorem monitorBeat_rewakes_oneTask :
    ∃ final pings, monitorBeat (idleAndWaiting
        (SetQueueAlone.callAlone SetQueue.queueOfTwo (.push 1)).2) 3 = some (final, pings) ∧
      Rewakes 2 final pings := by
  obtain ⟨-, hqueue⟩ := (SetQueueAlone.represents_empty (show 1 ≤ 2 by decide)
    fun _ ↦ 57).calls (le_refl 2) [.push 1]
  obtain ⟨final, pings, hbeat, hrewakes⟩ := @monitorBeat_rewakes_iff (idleAndWaiting
    (SetQueueAlone.callAlone SetQueue.queueOfTwo (.push 1)).2) rfl (by decide)
  refine ⟨final, pings, hbeat 3 (by decide), hrewakes.mpr fun u hu _ _ ↦ ?_⟩
  refine (delivers_iff _ hqueue).mpr ?_
  have hall : ∀ u < 2, idleBefore (idleAndWaiting
      (SetQueueAlone.callAlone SetQueue.queueOfTwo (.push 1)).2) u ≤
        (SetQueueAlone.callsAlone SetQueue.queueOfTwo [.push 1]).2.ringItems.length := by
    decide +kernel
  exact hall u hu

/-- With nothing in the queue the second monitor is not signalled again. -/
theorem not_monitorBeat_rewakes_noTask :
    ∃ final pings, monitorBeat (idleAndWaiting SetQueue.queueOfTwo) 3 = some (final, pings) ∧
      pings = [] ∧ ¬ Rewakes 2 final pings := by
  have hbeat : (monitorBeat (idleAndWaiting SetQueue.queueOfTwo) 3).map
      (fun result ↦ (result.2, bit result.1.bitmap 1, result.1.finished 1)) =
        some ([], false, 0) := by
    decide +kernel
  obtain ⟨⟨final, pings⟩, hresult, hview⟩ := Option.map_eq_some_iff.mp hbeat
  obtain ⟨rfl, hbit⟩ := Prod.mk.inj hview
  obtain ⟨hclear, hfinished⟩ := Prod.mk.inj hbit
  refine ⟨final, [], hresult, rfl, fun hrewakes ↦ ?_⟩
  exact absurd (hrewakes 1 (by decide) hclear hfinished) List.not_mem_nil

end Mcmp.Routines.WorkerBeat
