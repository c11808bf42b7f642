import Mcmp.Routines.Worker

/-!
# Making an executor

`mcmchWorkerCreate` and `mcmchWorkerStart` of worker.c, and what the block that `malloc` returns has
to do with the executor that they make of it. Creation stores the header, all but `failstry`, and
the start stores `finished` in every record. The bitmap and `failstry` stay as the block has them,
and the task of a record stays until one is taken into it.

Two executors that are made of different blocks behave alike when the bits of their sub-monitors are
the same and both or none of them begin with a clean-up: one schedule of their threads makes the
same assignments. The rest of the blocks is never looked at. The bits behind the last sub-monitor
are in the bytes that the threads exchange, but nobody changes them (`ByteAgrees`). So every
sub-monitor is available and the block has no influence exactly when the bits are clear and the
beats agree on the clean-up (`workerIndependent_iff`), which nothing in the code sees to. When they
are clear and no clean-up is asked for, the executor behaves like one that starts as `initially`
says (`assignments_initially`).
-/

set_option autoImplicit false
set_option relaxedAutoImplicit false

namespace Mcmp.Routines.WorkerCreate

open Foundation.ByteBits Foundation.Interleaving Utilities Utilities.BitmapScan Worker

/-! ### Creation and start -/

/-- The static monitors of monitor.c, as far as their number goes: how many of the
`MCMCHMONITOR_STATIC_MONITORS` are free. -/
structure MonitorRegistry where
  free : ℕ
  free_le : free ≤ 512

/-- `mcmchMonitorCreate` without a pool, which takes a static monitor. -/
def mcmchMonitorCreate (registry : MonitorRegistry) : Option MonitorRegistry :=
  if registry.free = 0 then none
  else some ⟨registry.free - 1, (Nat.sub_le _ _).trans registry.free_le⟩

/-- What a block from `malloc` holds where creation and start do not write, or only later: the
`failstry` of the header, the bitmap, and the tasks and flags of the records. -/
structure Block where
  failstry : ℤ
  bitmap : ByteMemory
  taskdata : ℕ → ℕ
  finished : ℕ → ℤ

/-- Returns the executor, and the monitors that are left. It is `none` when there is no block, and
when the master monitor is not created: the code does not look at that and starts the monitor whose
handle the block happens to hold. -/
def mcmchWorkerCreate (malloc : ℕ → Option Block) (queue : ℕ → Bool) (length : ℕ)
    (registry : MonitorRegistry) : Option (Executor × MonitorRegistry) :=
  let bitmapLength := (length + 7) % 2 ^ 64 / 8
  (malloc ((64 + bitmapLength + 32 * length) % 2 ^ 64)).bind fun block ↦
    (mcmchMonitorCreate registry).map fun registry ↦
      (⟨bitmapLength, length, block.failstry, block.bitmap, block.taskdata, block.finished, queue,
        false, fun _ ↦ false⟩, registry)

/-- The monitors of the records, one after the other. -/
def createMonitors : (count : ℕ) → MonitorRegistry → Option MonitorRegistry
  | 0, registry => some registry
  | count + 1, registry => (mcmchMonitorCreate registry).bind (createMonitors count)

/-- As with the master, it is `none` when a monitor is not created. -/
def mcmchWorkerStart (executor : Executor) (registry : MonitorRegistry) :
    Option (Executor × MonitorRegistry) :=
  (createMonitors executor.length registry).map fun registry ↦
    ({ executor with finished := fun m ↦ if m < executor.length then 1 else executor.finished m },
      registry)

/-- The executor that creation and start make of a block. -/
def made (registry : MonitorRegistry) (queue : ℕ → Bool) (length : ℕ) (block : Block) :
    Option Executor :=
  (mcmchWorkerCreate (fun _ ↦ some block) queue length registry).bind fun (executor, registry) ↦
    (mcmchWorkerStart executor registry).map Prod.fst

/-- An executor with its threads, before any of them has made a step. -/
def startedConfig (executor : Executor) : Config Party Executor WorkerThread :=
  ⟨executor, fun
    | .client => .client
    | .master => .master .waiting
    | .monitor m => .monitor m .waiting⟩

/-- The assignment that an event makes: an index that is taken into a record. -/
def assignment : WorkerEvent → Option (ℕ × ℕ)
  | .taken m idx => some (m, idx)
  | _ => none

/-- The assignments that a schedule of the users and the threads makes, or `none` when it cannot be
carried out. -/
def assignments (executor : Executor) (schedule : List (Party × WorkerCommand)) :
    Option (List (Party × (ℕ × ℕ))) :=
  (play workerMachine anyStep schedule [] (startedConfig executor)).map
    fun result ↦ observed assignment result.1

/-- A beat finds a sub-monitor: its bit is clear and it has finished. -/
def Available (executor : Executor) (m : ℕ) : Prop :=
  bit executor.bitmap m = false ∧ executor.finished m ≠ 0

/-- The executors that are made of two blocks are the same for their users: all sub-monitors are
available in both, and every schedule makes the same assignments in both. -/
def WorkerIndependent (registry : MonitorRegistry) (queue : ℕ → Bool) (length : ℕ)
    (first second : Block) : Prop :=
  ∃ executor executor', made registry queue length first = some executor ∧
    made registry queue length second = some executor' ∧
    (∀ m < length, Available executor m ∧ Available executor' m) ∧
    ∀ schedule, assignments executor schedule = assignments executor' schedule

/-- The executor of a block, when there are monitors for it. -/
def freshExecutor (queue : ℕ → Bool) (length : ℕ) (block : Block) : Executor :=
  ⟨(length + 7) / 8, length, block.failstry, block.bitmap, block.taskdata,
    fun m ↦ if m < length then 1 else block.finished m, queue, false, fun _ ↦ false⟩

theorem createMonitors_isSome_iff (count : ℕ) :
    ∀ registry : MonitorRegistry, (createMonitors count registry).isSome = true ↔
      count ≤ registry.free := by
  induction count with
  | zero =>
    intro registry
    simp [createMonitors]
  | succ count ih =>
    intro registry
    by_cases hfree : registry.free = 0
    · simp [createMonitors, mcmchMonitorCreate, hfree]
    · have hrest := ih ⟨registry.free - 1, (Nat.sub_le _ _).trans registry.free_le⟩
      rw [createMonitors, mcmchMonitorCreate, if_neg hfree, Option.bind_some, hrest]
      show count ≤ registry.free - 1 ↔ count + 1 ≤ registry.free
      omega

/-- An executor is made when there is a monitor for the master and one for each record. -/
theorem made_eq_some_iff {registry : MonitorRegistry} {queue : ℕ → Bool} {length : ℕ}
    {block : Block} {executor : Executor} :
    made registry queue length block = some executor ↔
      length < registry.free ∧ executor = freshExecutor queue length block := by
  by_cases hfree : registry.free = 0
  · simp [made, mcmchWorkerCreate, mcmchMonitorCreate, hfree]
  have hcount := createMonitors_isSome_iff length
    ⟨registry.free - 1, (Nat.sub_le _ _).trans registry.free_le⟩
  have hmade : made registry queue length block =
      (createMonitors length ⟨registry.free - 1, (Nat.sub_le _ _).trans registry.free_le⟩).map
        fun _ ↦ { freshExecutor queue length block with
          bitmapLength := (length + 7) % 2 ^ 64 / 8 } := by
    simp [made, mcmchWorkerCreate, mcmchMonitorCreate, hfree, mcmchWorkerStart, freshExecutor,
      Function.comp_def]
  rw [hmade]
  cases hmonitors : createMonitors length
    ⟨registry.free - 1, (Nat.sub_le _ _).trans registry.free_le⟩ with
  | none =>
    have hfew : ¬ length ≤ registry.free - 1 := by simpa [hmonitors] using hcount
    have hnot : ¬ length < registry.free := by omega
    simp [hnot]
  | some left =>
    have henough : length ≤ registry.free - 1 := by simpa [hmonitors] using hcount
    have hlt : length < registry.free := by omega
    have hsize : (length + 7) % 2 ^ 64 = length + 7 := by
      have hfew := registry.free_le
      omega
    simp only [Option.map_some, Option.some.injEq, hlt, true_and, hsize, eq_comm]
    rfl

/-! ### Bitmaps that differ behind the last sub-monitor -/

section Bitmaps

variable (length : ℕ) (tail tail' : ByteMemory)

/-- Two bytes at one place of two bitmaps: the bits of the sub-monitors are the same, and the bits
behind the last one are those of the two blocks. -/
structure ByteAgrees (i : ℕ) (byte byte' : BitVec 8) : Prop where
  inside : ∀ k < 8, 8 * i + k < length → byte.getLsbD k = byte'.getLsbD k
  behind : ∀ k < 8, length ≤ 8 * i + k →
    byte.getLsbD k = (tail i).getLsbD k ∧ byte'.getLsbD k = (tail' i).getLsbD k

def BitmapAgrees (bitmap bitmap' : ByteMemory) : Prop :=
  ∀ i, ByteAgrees length tail tail' i (bitmap i) (bitmap' i)

/-- Two calls on the bits of one byte, before their load or with the bytes they loaded. -/
inductive StageAgrees (i : ℕ) : AtomicBitmap.Stage → AtomicBitmap.Stage → Prop
  | load : StageAgrees i .load .load
  | compareExchange {byteval byteval' : BitVec 8} :
      ByteAgrees length tail tail' i byteval byteval' →
      StageAgrees i (.compareExchange byteval) (.compareExchange byteval')

/-- Two calls that have both returned, or are both in the same operation. -/
inductive CallAgrees (op : AtomicBitmap.BitOp) :
    AtomicBitmap.BitThread → AtomicBitmap.BitThread → Prop
  | idle : CallAgrees op .idle .idle
  | running {stage stage' : AtomicBitmap.Stage} :
      StageAgrees length tail tail' (op.idx / 8) stage stage' →
      CallAgrees op (.running op stage) (.running op stage')

variable {length tail tail'} {i idx : ℕ} {byte byte' other other' : BitVec 8}
  {bitmap bitmap' : ByteMemory} {stage stage' : AtomicBitmap.Stage}

/-- A compare-exchange comes out the same in both. -/
theorem ByteAgrees.eq_iff (h : ByteAgrees length tail tail' i byte byte')
    (hother : ByteAgrees length tail tail' i other other') : byte = other ↔ byte' = other' := by
  constructor
  · rintro rfl
    apply BitVec.eq_of_getLsbD_eq
    intro k hk
    rcases Nat.lt_or_ge (8 * i + k) length with hlt | hle
    · rw [← h.inside k hk hlt, hother.inside k hk hlt]
    · rw [(h.behind k hk hle).2, (hother.behind k hk hle).2]
  · rintro rfl
    apply BitVec.eq_of_getLsbD_eq
    intro k hk
    rcases Nat.lt_or_ge (8 * i + k) length with hlt | hle
    · rw [h.inside k hk hlt, hother.inside k hk hlt]
    · rw [(h.behind k hk hle).1, (hother.behind k hk hle).1]

theorem ByteAgrees.or_bitMask (h : ByteAgrees length tail tail' (idx / 8) byte byte')
    (hidx : idx < length) :
    ByteAgrees length tail tail' (idx / 8) (byte ||| bitMask (idx % 8))
      (byte' ||| bitMask (idx % 8)) := by
  refine ⟨fun k hk hlt ↦ ?_, fun k hk hle ↦ ?_⟩
  · rw [BitVec.getLsbD_or, BitVec.getLsbD_or, h.inside k hk hlt]
  · have hne : k ≠ idx % 8 := by omega
    rw [BitVec.getLsbD_or, BitVec.getLsbD_or, getLsbD_bitMask hk]
    simpa [hne] using h.behind k hk hle

theorem ByteAgrees.and_not_bitMask (h : ByteAgrees length tail tail' (idx / 8) byte byte')
    (hidx : idx < length) :
    ByteAgrees length tail tail' (idx / 8) (byte &&& ~~~bitMask (idx % 8))
      (byte' &&& ~~~bitMask (idx % 8)) := by
  refine ⟨fun k hk hlt ↦ ?_, fun k hk hle ↦ ?_⟩
  · rw [BitVec.getLsbD_and, BitVec.getLsbD_and, h.inside k hk hlt]
  · have hne : k ≠ idx % 8 := by omega
    rw [BitVec.getLsbD_and, BitVec.getLsbD_and, BitVec.getLsbD_not, getLsbD_bitMask hk]
    simpa [hne, hk] using h.behind k hk hle

theorem BitmapAgrees.bit (h : BitmapAgrees length tail tail' bitmap bitmap') {j : ℕ}
    (hj : j < length) : bit bitmap j = bit bitmap' j :=
  (h (j / 8)).inside (j % 8) (Nat.mod_lt _ (by omega)) (by omega)

theorem BitmapAgrees.update (h : BitmapAgrees length tail tail' bitmap bitmap')
    (hbyte : ByteAgrees length tail tail' i byte byte') :
    BitmapAgrees length tail tail' (Function.update bitmap i byte)
      (Function.update bitmap' i byte') := by
  intro j
  by_cases hj : j = i
  · subst hj
    rwa [Function.update_self, Function.update_self]
  · rw [Function.update_of_ne hj, Function.update_of_ne hj]
    exact h j

/-- A step of a call that tests and changes the bits of a byte alike in both. -/
theorem tryBit_agrees {op : AtomicBitmap.BitOp} {test : BitVec 8 → Bool}
    {nextval : BitVec 8 → BitVec 8}
    (htest : ∀ byte byte', ByteAgrees length tail tail' (op.idx / 8) byte byte' →
      test byte = test byte')
    (hnextval : ∀ byte byte', ByteAgrees length tail tail' (op.idx / 8) byte byte' →
      ByteAgrees length tail tail' (op.idx / 8) (nextval byte) (nextval byte'))
    (hbitmap : BitmapAgrees length tail tail' bitmap bitmap')
    (hstage : StageAgrees length tail tail' (op.idx / 8) stage stage') :
    (AtomicBitmap.tryBit op test nextval bitmap stage).1.status =
        (AtomicBitmap.tryBit op test nextval bitmap' stage').1.status ∧
      BitmapAgrees length tail tail' (AtomicBitmap.tryBit op test nextval bitmap stage).2.1
        (AtomicBitmap.tryBit op test nextval bitmap' stage').2.1 ∧
      CallAgrees length tail tail' op (AtomicBitmap.tryBit op test nextval bitmap stage).2.2
        (AtomicBitmap.tryBit op test nextval bitmap' stage').2.2 := by
  have hbyte := hbitmap (op.idx / 8)
  cases hstage with
  | load =>
    have hsame := htest _ _ hbyte
    cases hfires : test (bitmap' (op.idx / 8)) with
    | true =>
      rw [hfires] at hsame
      simp only [AtomicBitmap.tryBit, hsame, hfires, if_true, AtomicBitmap.BitEvent.status]
      exact ⟨trivial, hbitmap, .idle⟩
    | false =>
      rw [hfires] at hsame
      simp only [AtomicBitmap.tryBit, hsame, hfires, Bool.false_eq_true, if_false,
        AtomicBitmap.BitEvent.status]
      exact ⟨trivial, hbitmap, .running (.compareExchange hbyte)⟩
  | @compareExchange byteval byteval' hval =>
    by_cases hsame : bitmap (op.idx / 8) = byteval
    · have hsame' := (hbyte.eq_iff hval).mp hsame
      simp only [AtomicBitmap.tryBit, hsame, hsame', if_true, AtomicBitmap.BitEvent.status]
      exact ⟨trivial, hbitmap.update (hnextval _ _ hval), .idle⟩
    · have hsame' := mt (hbyte.eq_iff hval).mpr hsame
      simp only [AtomicBitmap.tryBit, hsame, hsame', if_false, AtomicBitmap.BitEvent.status]
      exact ⟨trivial, hbitmap, .idle⟩

/-- A step of a call on the bit of a sub-monitor. -/
theorem callStep_agrees {op : AtomicBitmap.BitOp} (hop : op.idx < length)
    (hbitmap : BitmapAgrees length tail tail' bitmap bitmap')
    (hstage : StageAgrees length tail tail' (op.idx / 8) stage stage') :
    (AtomicBitmap.callStep bitmap op stage).1.status =
        (AtomicBitmap.callStep bitmap' op stage').1.status ∧
      BitmapAgrees length tail tail' (AtomicBitmap.callStep bitmap op stage).2.1
        (AtomicBitmap.callStep bitmap' op stage').2.1 ∧
      CallAgrees length tail tail' op (AtomicBitmap.callStep bitmap op stage).2.2
        (AtomicBitmap.callStep bitmap' op stage').2.2 := by
  cases op with
  | tryEnableBit idx =>
    refine tryBit_agrees ?_ (fun _ _ hbyte ↦ hbyte.or_bitMask hop) hbitmap hstage
    intro byte byte' hbyte
    have hlt : idx % 8 < 8 := Nat.mod_lt _ (by omega)
    have hlength : idx < length := hop
    have hbit := hbyte.inside (idx % 8) hlt (by simp only [AtomicBitmap.BitOp.idx]; omega)
    rw [decide_eq_decide, and_bitMask_ne_zero hlt, and_bitMask_ne_zero hlt, hbit]
  | tryDisableBit idx =>
    refine tryBit_agrees (fun byte byte' _ ↦ ?_) (fun byte byte' hbyte ↦ ?_) hbitmap hstage
    · have hlt : idx % 8 < 8 := Nat.mod_lt _ (by omega)
      rw [AtomicBitmap.releaseTest_false hlt, AtomicBitmap.releaseTest_false hlt]
    · rw [AtomicBitmap.setWidth_not_shiftLeft]
      exact hbyte.and_not_bitMask hop

/-- A step of a loop of tries on the bit of a sub-monitor. -/
theorem tryLoop_agrees {Next : Type} {rel : Next → Next → Prop} {op : AtomicBitmap.BitOp}
    (hop : op.idx < length) {again : ℕ → AtomicBitmap.Stage → Next}
    {success success' failure : Next}
    (hagain : ∀ tries stage stage', StageAgrees length tail tail' (op.idx / 8) stage stage' →
      rel (again tries stage) (again tries stage'))
    (hsuccess : rel success success') (hfailure : rel failure failure) (tries : ℕ)
    (hbitmap : BitmapAgrees length tail tail' bitmap bitmap')
    (hstage : StageAgrees length tail tail' (op.idx / 8) stage stage') :
    BitmapAgrees length tail tail' (tryLoop again success failure op tries stage bitmap).1
        (tryLoop again success' failure op tries stage' bitmap').1 ∧
      rel (tryLoop again success failure op tries stage bitmap).2
        (tryLoop again success' failure op tries stage' bitmap').2 := by
  obtain ⟨hstatus, hafter, hcall⟩ := callStep_agrees hop hbitmap hstage
  unfold tryLoop
  generalize AtomicBitmap.callStep bitmap op stage = result at hstatus hafter hcall ⊢
  generalize AtomicBitmap.callStep bitmap' op stage' = result' at hstatus hafter hcall ⊢
  obtain ⟨event, after, thread⟩ := result
  obtain ⟨event', after', thread'⟩ := result'
  cases hcall with
  | running hnext => exact ⟨hafter, hagain tries _ _ hnext⟩
  | idle =>
    simp only at hstatus
    simp only [hstatus]
    split
    case isTrue => exact ⟨hafter, hsuccess⟩
    case isFalse =>
      split
      case isTrue => exact ⟨hafter, hagain _ _ _ .load⟩
      case isFalse => exact ⟨hafter, hfailure⟩

end Bitmaps

/-! ### Two executors of one length -/

section Executors

variable (length : ℕ) (tail tail' : ByteMemory)

/-- Two executors that no sub-monitor tells apart. Both have a clean-up to make, or none of them,
unless there is nothing to clean. -/
structure ExecutorAgrees (executor executor' : Executor) : Prop where
  length_eq : executor.length = length
  length_eq' : executor'.length = length
  bitmapLength : executor.bitmapLength = (length + 7) / 8
  bitmapLength' : executor'.bitmapLength = (length + 7) / 8
  failstry : length = 0 ∨ (executor.failstry = 0 ↔ executor'.failstry = 0)
  bitmap : BitmapAgrees length tail tail' executor.bitmap executor'.bitmap
  finished : ∀ m < length, executor.finished m = executor'.finished m
  queue : executor.queue = executor'.queue
  masterPending : executor.masterPending = executor'.masterPending
  pending : executor.pending = executor'.pending
  idle : ∀ m, length ≤ m → executor.pending m = false

/-- The sub-monitor that a stage of the master is about is one of the executor. A stage of a try is
not among these. -/
def Below : MasterStage → Prop
  | .cleanFinished m | .readFinished m | .take m | .storeFinished m | .ping m => m < length
  | .clean _ _ _ => False
  | _ => True

/-- Two masters at one stage. -/
inductive MasterAgrees : MasterStage → MasterStage → Prop
  | same {stage : MasterStage} : Below length stage → MasterAgrees stage stage
  | clean {m tries : ℕ} {stage stage' : AtomicBitmap.Stage} : m < length →
      StageAgrees length tail tail' (m / 8) stage stage' →
      MasterAgrees (.clean m tries stage) (.clean m tries stage')

/-- Two sub-monitors of one number at one stage; those that the executor does not have wait. -/
inductive MonitorAgrees (m : ℕ) : MonitorStage → MonitorStage → Prop
  | waiting : MonitorAgrees m .waiting .waiting
  | enable {tries : ℕ} {stage stage' : AtomicBitmap.Stage} : m < length →
      StageAgrees length tail tail' (m / 8) stage stage' →
      MonitorAgrees m (.enable tries stage) (.enable tries stage')
  | readTask : m < length → MonitorAgrees m .readTask .readTask
  | storeFinished : m < length → MonitorAgrees m .storeFinished .storeFinished
  | disable {tries : ℕ} {stage stage' : AtomicBitmap.Stage} : m < length →
      StageAgrees length tail tail' (m / 8) stage stage' →
      MonitorAgrees m (.disable tries stage) (.disable tries stage')
  | setFailstry : m < length → MonitorAgrees m .setFailstry .setFailstry

/-- Two threads of one name. -/
inductive ThreadAgrees : WorkerThread → WorkerThread → Prop
  | client : ThreadAgrees .client .client
  | master {stage stage' : MasterStage} : MasterAgrees length tail tail' stage stage' →
      ThreadAgrees (.master stage) (.master stage')
  | monitor {m : ℕ} {stage stage' : MonitorStage} : MonitorAgrees length tail tail' m stage stage' →
      ThreadAgrees (.monitor m stage) (.monitor m stage')

variable {length tail tail'} {executor executor' : Executor} {result result' : ScanResult}

/-- Two results of a load that tell the same about the bits of the sub-monitors. -/
def ResultAgrees (length : ℕ) (result result' : ScanResult) : Prop :=
  result = result' ∨ result.Beyond length ∧ result'.Beyond length

theorem assignAt_agrees (h : ExecutorAgrees length tail tail' executor executor')
    (hresult : ResultAgrees length result result') :
    MasterAgrees length tail tail' (assignAt executor result) (assignAt executor' result') := by
  have hbeyond {executor : Executor} (hlength : executor.length = length) {result : ScanResult}
      (hresult : result.Beyond length) : assignAt executor result = .waiting := by
    cases result with
    | more state => exact hresult.elim
    | found index => exact if_neg (by rw [hlength]; exact not_lt.mpr hresult)
    | missed => rfl
  rcases hresult with rfl | ⟨hresult, hresult'⟩
  · cases result with
    | more state => exact .same trivial
    | found index =>
      rw [assignAt, assignAt, h.length_eq, h.length_eq']
      split
      case isTrue hlt => exact .same hlt
      case isFalse => exact .same trivial
    | missed => exact .same trivial
  · rw [hbeyond h.length_eq hresult, hbeyond h.length_eq' hresult']
    exact .same trivial

theorem assignFrom_agrees (h : ExecutorAgrees length tail tail' executor executor')
    (offset : ℕ) :
    MasterAgrees length tail tail' (assignFrom executor offset) (assignFrom executor' offset) := by
  rw [assignFrom, assignFrom, h.bitmapLength, h.bitmapLength']
  exact assignAt_agrees h (Or.inl rfl)

theorem cleanAt_agrees (h : ExecutorAgrees length tail tail' executor executor')
    (hresult : ResultAgrees length result result') :
    MasterAgrees length tail tail' (cleanAt executor result) (cleanAt executor' result') := by
  have hbeyond {executor : Executor} (hlength : executor.length = length) {result : ScanResult}
      (hresult : result.Beyond length) : cleanAt executor result = assignFrom executor 0 := by
    cases result with
    | more state => exact hresult.elim
    | found index => exact if_neg (by rw [hlength]; exact not_lt.mpr hresult)
    | missed => rfl
  rcases hresult with rfl | ⟨hresult, hresult'⟩
  · cases result with
    | more state => exact .same trivial
    | found index =>
      rw [cleanAt, cleanAt, h.length_eq, h.length_eq']
      split
      case isTrue hlt => exact .same hlt
      case isFalse => exact assignFrom_agrees h 0
    | missed => exact assignFrom_agrees h 0
  · rw [hbeyond h.length_eq hresult, hbeyond h.length_eq' hresult']
    exact assignFrom_agrees h 0

theorem cleanFrom_agrees (h : ExecutorAgrees length tail tail' executor executor')
    (offset : ℕ) :
    MasterAgrees length tail tail' (cleanFrom executor offset) (cleanFrom executor' offset) := by
  rw [cleanFrom, cleanFrom, h.bitmapLength, h.bitmapLength']
  exact cleanAt_agrees h (Or.inl rfl)

/-- The stage behind the exchange of `failstry`. -/
theorem exchanged_agrees (h : ExecutorAgrees length tail tail' executor executor') :
    MasterAgrees length tail tail'
      (if executor.failstry ≠ 0 then cleanFrom executor 0 else assignFrom executor 0)
      (if executor'.failstry ≠ 0 then cleanFrom executor' 0 else assignFrom executor' 0) := by
  rcases h.failstry with rfl | hsame
  · -- without sub-monitors the clean-up has no byte to read
    have hclean {executor : Executor} (hlength : executor.bitmapLength = (0 + 7) / 8) :
        cleanFrom executor 0 = assignFrom executor 0 := by
      rw [cleanFrom, hlength]
      rfl
    rw [hclean h.bitmapLength, hclean h.bitmapLength', ite_self, ite_self]
    exact assignFrom_agrees h 0
  · by_cases hzero : executor.failstry = 0
    · rw [if_neg (not_not.mpr hzero), if_neg (not_not.mpr (hsame.mp hzero))]
      exact assignFrom_agrees h 0
    · rw [if_pos hzero, if_pos (mt hsame.mpr hzero)]
      exact cleanFrom_agrees h 0

/-- A load of one of the two scans. -/
theorem scanStep_agrees (h : ExecutorAgrees length tail tail' executor executor')
    (selection : Selection) {register : ℕ} (hregister : 8 ≤ register) (state : ScanState) :
    ResultAgrees length
      (scanStep selection register executor.bitmapLength executor.bitmap state)
      (scanStep selection register executor'.bitmapLength executor'.bitmap state) := by
  rw [h.bitmapLength, h.bitmapLength']
  exact scanStep_congr rfl hregister (fun j hj ↦ h.bitmap.bit hj) state

/-- The steps of two masters look alike. -/
theorem masterStep_agrees (h : ExecutorAgrees length tail tail' executor executor')
    {stage stage' : MasterStage} (hstage : MasterAgrees length tail tail' stage stage')
    (command : WorkerCommand) :
    Option.Rel (Alike assignment (ExecutorAgrees length tail tail')
        (MasterAgrees length tail tail'))
      (masterStep executor command stage) (masterStep executor' command stage') := by
  cases hstage with
  | @clean m tries stage stage' hm hstage =>
    cases command with
    | advance =>
      obtain ⟨hbitmap, hnext⟩ := @tryLoop_agrees length tail tail' executor.bitmap executor'.bitmap
        stage stage' _ (MasterAgrees length tail tail') (.tryDisableBit m) hm (.clean m)
        (cleanFrom executor (m + 1)) (cleanFrom executor' (m + 1)) .storeFailstry
        (fun tries _ _ hstage ↦ .clean hm hstage) (cleanFrom_agrees h (m + 1)) (.same trivial) tries
        h.bitmap hstage
      exact .some ⟨rfl, { h with bitmap := hbitmap }, hnext⟩
    | _ => exact .none
  | @same stage hbelow =>
    cases stage with
    | waiting =>
      cases command with
      | advance =>
        simp only [masterStep, h.masterPending]
        split
        case isTrue => exact .some ⟨rfl, { h with masterPending := rfl }, .same trivial⟩
        case isFalse => exact .none
      | _ => exact .none
    | exchangeFailstry =>
      cases command with
      | advance =>
        exact .some ⟨rfl, { h with failstry := Or.inr Iff.rfl }, exchanged_agrees h⟩
      | _ => exact .none
    | scanOccupied state =>
      cases command with
      | advance =>
        exact .some ⟨rfl, h, cleanAt_agrees h (scanStep_agrees h occupied (by decide) state)⟩
      | _ => exact .none
    | cleanFinished m =>
      cases command with
      | advance =>
        refine .some ⟨rfl, h, ?_⟩
        simp only [h.finished m hbelow]
        split
        case isTrue => exact cleanFrom_agrees h (m + 1)
        case isFalse => exact .clean hbelow .load
      | _ => exact .none
    | clean m tries stage => exact hbelow.elim
    | storeFailstry =>
      cases command with
      | advance =>
        exact .some ⟨rfl, { h with failstry := Or.inr Iff.rfl }, assignFrom_agrees h 0⟩
      | _ => exact .none
    | scanAvaible state =>
      cases command with
      | advance =>
        exact .some ⟨rfl, h, assignAt_agrees h (scanStep_agrees h avaible (by decide) state)⟩
      | _ => exact .none
    | readFinished m =>
      cases command with
      | advance =>
        refine .some ⟨rfl, h, ?_⟩
        simp only [h.finished m hbelow]
        split
        case isTrue => exact .same hbelow
        case isFalse => exact .same hbelow
      | _ => exact .none
    | take m =>
      cases command with
      | take idx =>
        simp only [masterStep, h.queue]
        split
        case isTrue => exact .some ⟨rfl, { h with queue := rfl }, .same hbelow⟩
        case isFalse => exact .none
      | takeFails => exact .some ⟨rfl, h, .same trivial⟩
      | _ => exact .none
    | storeFinished m =>
      cases command with
      | advance =>
        refine .some ⟨rfl, { h with finished := fun other hother ↦ ?_ }, .same hbelow⟩
        by_cases hsame : other = m
        · subst hsame
          simp
        · simpa [hsame] using h.finished other hother
      | _ => exact .none
    | ping m =>
      cases command with
      | advance =>
        refine .some ⟨rfl, { h with pending := ?_, idle := fun other hother ↦ ?_ },
          assignFrom_agrees h (m + 1)⟩
        · simp only [h.pending]
        · have hm : m < length := hbelow
          have hne : other ≠ m := by omega
          simpa [hne] using h.idle other hother
      | _ => exact .none

/-- The steps of two sub-monitors look alike. -/
theorem monitorStep_agrees (h : ExecutorAgrees length tail tail' executor executor') {m : ℕ}
    {stage stage' : MonitorStage} (hstage : MonitorAgrees length tail tail' m stage stage') :
    Option.Rel (Alike assignment (ExecutorAgrees length tail tail')
        (MonitorAgrees length tail tail' m))
      (monitorStep executor m stage) (monitorStep executor' m stage') := by
  cases hstage with
  | waiting =>
    simp only [monitorStep, ← h.pending]
    split
    case isTrue hpending =>
      have hm : m < length := by
        by_contra hle
        rw [h.idle m (not_lt.mp hle)] at hpending
        exact Bool.noConfusion hpending
      refine .some ⟨rfl, { h with pending := rfl, idle := fun other hother ↦ ?_ },
        .enable hm .load⟩
      have hne : other ≠ m := by omega
      simpa [hne] using h.idle other hother
    case isFalse => exact .none
  | @enable tries stage stage' hm hstage =>
    obtain ⟨hbitmap, hnext⟩ := @tryLoop_agrees length tail tail' executor.bitmap executor'.bitmap
      stage stage' _ (MonitorAgrees length tail tail' m) (.tryEnableBit m) hm .enable .readTask
      .readTask .waiting (fun tries _ _ hstage ↦ .enable hm hstage) (.readTask hm) .waiting tries
      h.bitmap hstage
    exact .some ⟨rfl, { h with bitmap := hbitmap }, hnext⟩
  | readTask hm => exact .some ⟨rfl, h, .storeFinished hm⟩
  | storeFinished hm =>
    refine .some ⟨rfl, { h with finished := fun other hother ↦ ?_ }, .disable hm .load⟩
    by_cases hsame : other = m
    · subst hsame
      simp
    · simpa [hsame] using h.finished other hother
  | @disable tries stage stage' hm hstage =>
    obtain ⟨hbitmap, hnext⟩ := @tryLoop_agrees length tail tail' executor.bitmap executor'.bitmap
      stage stage' _ (MonitorAgrees length tail tail' m) (.tryDisableBit m) hm .disable .waiting
      .waiting .setFailstry (fun tries _ _ hstage ↦ .disable hm hstage) .waiting (.setFailstry hm)
      tries h.bitmap hstage
    exact .some ⟨rfl, { h with bitmap := hbitmap }, hnext⟩
  | setFailstry hm =>
    refine .some ⟨rfl, { h with failstry := Or.inr ?_ }, .waiting⟩
    have hset (failstry : ℤ) : ¬ (if failstry = 0 then 1 else failstry) = 0 := by
      split
      case isTrue => decide
      case isFalse hne => exact hne
    exact iff_of_false (hset _) (hset _)

/-- The machine steps the master as its step function says. -/
theorem workerMachine_master (command : WorkerCommand) (executor : Executor)
    (stage : MasterStage) :
    workerMachine command executor (.master stage) =
      (masterStep executor command stage).map fun step ↦
        (step.1, step.2.1, .master step.2.2) := by
  cases command <;> rfl

theorem workerMachine_agrees (command : WorkerCommand)
    (h : ExecutorAgrees length tail tail' executor executor') {thread thread' : WorkerThread}
    (hthread : ThreadAgrees length tail tail' thread thread') :
    Option.Rel (Alike assignment (ExecutorAgrees length tail tail')
        (ThreadAgrees length tail tail'))
      (workerMachine command executor thread) (workerMachine command executor' thread') := by
  cases hthread with
  | client =>
    cases command with
    | push idx =>
      simp only [workerMachine, h.queue]
      split
      case isTrue => exact .some ⟨rfl, h, .client⟩
      case isFalse => exact .some ⟨rfl, { h with queue := rfl }, .client⟩
    | beat => exact .some ⟨rfl, { h with masterPending := rfl }, .client⟩
    | _ => exact .none
  | @master stage stage' hstage =>
    rw [workerMachine_master, workerMachine_master]
    exact Alike.map _ (fun _ _ ↦ .master) (masterStep_agrees h hstage command)
  | @monitor m stage stage' hstage =>
    cases command with
    | advance =>
      exact Alike.map _ (fun _ _ ↦ .monitor) (monitorStep_agrees h hstage)
    | _ => exact .none

end Executors

/-! ### The blocks that make no difference -/

section Blocks

variable {registry : MonitorRegistry} {queue : ℕ → Bool} {length : ℕ} {first second : Block}

/-- Two bitmaps with clear bits below the length agree. -/
theorem bitmapAgrees_of_clear {bitmap bitmap' : ByteMemory}
    (hclear : ∀ m < length, bit bitmap m = false ∧ bit bitmap' m = false) :
    BitmapAgrees length bitmap bitmap' bitmap bitmap' := by
  refine fun i ↦ ⟨fun k hk hlt ↦ ?_, fun _ _ _ ↦ ⟨rfl, rfl⟩⟩
  have hdiv : (8 * i + k) / 8 = i := by omega
  have hmod : (8 * i + k) % 8 = k := by omega
  have hbits := hclear _ hlt
  rw [bit, bit, hdiv, hmod] at hbits
  exact hbits.1.trans hbits.2.symm

/-- The executors of two blocks whose bits are clear, before any step. -/
theorem executorAgrees_freshExecutor
    (hclear : ∀ m < length, bit first.bitmap m = false ∧ bit second.bitmap m = false)
    (hfailstry : length = 0 ∨ (first.failstry = 0 ↔ second.failstry = 0)) :
    ExecutorAgrees length first.bitmap second.bitmap (freshExecutor queue length first)
      (freshExecutor queue length second) where
  length_eq := rfl
  length_eq' := rfl
  bitmapLength := rfl
  bitmapLength' := rfl
  failstry := hfailstry
  bitmap := bitmapAgrees_of_clear hclear
  finished := fun _ hm ↦ (if_pos hm).trans (if_pos hm).symm
  queue := rfl
  masterPending := rfl
  pending := rfl
  idle := fun _ _ ↦ rfl

/-- Executors that agree make the same assignments, whatever the schedule. -/
theorem ExecutorAgrees.assignments_eq {tail tail' : ByteMemory} {executor executor' : Executor}
    (h : ExecutorAgrees length tail tail' executor executor')
    (schedule : List (Party × WorkerCommand)) :
    assignments executor schedule = assignments executor' schedule := by
  apply play_observed assignment (ExecutorAgrees length tail tail')
    (ThreadAgrees length tail tail')
    (fun command _ _ _ _ hshared hthread ↦ workerMachine_agrees command hshared hthread) schedule
    rfl h
  intro party
  cases party with
  | client => exact .client
  | master => exact .master (.same trivial)
  | monitor m => exact .monitor .waiting

/-- In a block whose bits are clear and whose `failstry` is zero, the executor makes the assignments
of one that starts as `initially` says. -/
theorem assignments_initially (taskdata : ℕ → ℕ)
    (hclear : ∀ m < length, bit first.bitmap m = false) (hfailstry : first.failstry = 0)
    (schedule : List (Party × WorkerCommand)) :
    assignments (freshExecutor (fun _ ↦ false) length first) schedule =
      assignments (initially length taskdata).shared schedule := by
  have hagrees : ExecutorAgrees length first.bitmap (fun _ ↦ 0)
      (freshExecutor (fun _ ↦ false) length first) (initially length taskdata).shared :=
    { length_eq := rfl
      length_eq' := rfl
      bitmapLength := rfl
      bitmapLength' := rfl
      failstry := Or.inr (iff_of_true hfailstry rfl)
      bitmap := bitmapAgrees_of_clear fun m hm ↦ ⟨hclear m hm, bit_zero m⟩
      finished := fun m hm ↦ if_pos hm
      queue := rfl
      masterPending := rfl
      pending := rfl
      idle := fun _ _ ↦ rfl }
  exact hagrees.assignments_eq schedule

/-- How many steps the master still has to make before it takes an index, at least. -/
def MasterStage.ahead : MasterStage → ℕ
  | .take _ => 0
  | .readFinished _ => 1
  | .scanAvaible _ => 2
  | _ => 3

theorem ahead_assignAt (executor : Executor) (result : ScanResult) :
    1 ≤ MasterStage.ahead (assignAt executor result) := by
  cases result with
  | more state => exact Nat.le_succ 1
  | found index =>
    rw [assignAt]
    split
    case isTrue => exact le_rfl
    case isFalse => exact Nat.le_add_left 1 2
  | missed => exact Nat.le_add_left 1 2

theorem ahead_assignFrom (executor : Executor) (offset : ℕ) :
    2 ≤ MasterStage.ahead (assignFrom executor offset) := by
  unfold assignFrom startScan
  split
  case isTrue => exact Nat.le_succ 2
  case isFalse => exact le_rfl

theorem ahead_cleanAt (executor : Executor) (result : ScanResult) :
    2 ≤ MasterStage.ahead (cleanAt executor result) := by
  cases result with
  | more state => exact Nat.le_succ 2
  | found index =>
    rw [cleanAt]
    split
    case isTrue => exact Nat.le_succ 2
    case isFalse => exact ahead_assignFrom executor 0
  | missed => exact ahead_assignFrom executor 0

theorem ahead_tryLoop {op : AtomicBitmap.BitOp} {again : ℕ → AtomicBitmap.Stage → MasterStage}
    {success failure : MasterStage} {n : ℕ}
    (hagain : ∀ tries stage, n ≤ MasterStage.ahead (again tries stage))
    (hsuccess : n ≤ MasterStage.ahead success) (hfailure : n ≤ MasterStage.ahead failure)
    (tries : ℕ) (stage : AtomicBitmap.Stage) (bitmap : ByteMemory) :
    n ≤ MasterStage.ahead (tryLoop again success failure op tries stage bitmap).2 := by
  rcases tryLoop_cases again success failure op tries stage bitmap with ⟨tries', stage', htry⟩ |
    htry | ⟨bitmap', htry, -⟩
  · rw [htry]
    exact hagain tries' stage'
  · rw [htry]
    exact hfailure
  · rw [htry]
    exact hsuccess

/-- A step of the master brings an assignment nearer by at most one step. -/
theorem ahead_masterStep {executor executor' : Executor} {stage stage' : MasterStage}
    {event : WorkerEvent}
    (hstep : masterStep executor .advance stage = some (event, executor', stage')) :
    MasterStage.ahead stage ≤ MasterStage.ahead stage' + 1 := by
  have hassign (executor : Executor) (offset : ℕ) :
      3 ≤ MasterStage.ahead (assignFrom executor offset) + 1 :=
    Nat.succ_le_succ (ahead_assignFrom executor offset)
  have hclean (executor : Executor) (offset : ℕ) :
      3 ≤ MasterStage.ahead (cleanFrom executor offset) + 1 :=
    Nat.succ_le_succ (ahead_cleanAt executor _)
  cases stage with
  | waiting =>
    simp only [masterStep] at hstep
    split at hstep
    · cases hstep
      exact Nat.le_succ 3
    · cases hstep
  | exchangeFailstry =>
    cases hstep
    split
    case isTrue => exact hclean executor 0
    case isFalse => exact hassign executor 0
  | scanOccupied state =>
    cases hstep
    exact Nat.succ_le_succ (ahead_cleanAt executor _)
  | cleanFinished m =>
    cases hstep
    split
    case isTrue => exact hclean executor (m + 1)
    case isFalse => exact Nat.le_succ 3
  | clean m tries stage =>
    cases hstep
    have hagain (tries : ℕ) (stage : AtomicBitmap.Stage) :
        2 ≤ MasterStage.ahead (.clean m tries stage) := Nat.le_succ 2
    have hfailure : 2 ≤ MasterStage.ahead .storeFailstry := Nat.le_succ 2
    exact Nat.succ_le_succ (ahead_tryLoop hagain (ahead_cleanAt executor _) hfailure tries stage _)
  | storeFailstry =>
    cases hstep
    exact hassign executor 0
  | scanAvaible state =>
    cases hstep
    exact Nat.succ_le_succ (ahead_assignAt executor _)
  | readFinished m =>
    cases hstep
    exact Nat.le_add_left 1 _
  | take m => cases hstep
  | storeFinished m =>
    cases hstep
    exact Nat.le_succ 3
  | ping m =>
    cases hstep
    exact hassign executor (m + 1)

/-- The master cannot take an index before it has made the steps that are ahead of it. -/
theorem play_take_eq_none (idx n : ℕ) :
    ∀ {config : Config Party Executor WorkerThread} {stage : MasterStage}
      {past : List (Party × WorkerEvent)}, MasterAt config stage →
      n < MasterStage.ahead stage →
      play workerMachine anyStep (goOn .master n ++ [(.master, WorkerCommand.take idx)]) past
        config = none := by
  induction n with
  | zero =>
    intro config stage past hstage hahead
    have hrefused : masterStep config.shared (.take idx) stage = none := by
      cases stage with
      | take m => exact absurd hahead (lt_irrefl 0)
      | _ => rfl
    have hmachine : workerMachine (.take idx) config.shared (config.threads .master) = none := by
      rw [hstage, workerMachine_master, hrefused]
      rfl
    simp only [goOn, List.replicate_zero, List.nil_append, play, hmachine]
  | succ n ih =>
    intro config stage past hstage hahead
    rw [goOn, List.replicate_succ, List.cons_append, play, hstage, workerMachine_master]
    cases hstep : masterStep config.shared .advance stage with
    | none => rfl
    | some result =>
      obtain ⟨event, executor, stage'⟩ := result
      have hnear := ahead_masterStep hstep
      have hahead' : n < MasterStage.ahead stage' := by omega
      exact (if_pos trivial).trans (ih (Config.advance_threads_self _ _ _ _) hahead')

/-- Pushes an index and lets the master take it as soon as it can. -/
def pushAndTake : List (Party × WorkerCommand) := (.client, .push 0) :: takeFirst 0

/-- The user's part of the schedule, and the two steps of the master up to its first scan. -/
theorem assignments_pushAndTake (executor : Executor) :
    ∃ (past : List (Party × WorkerEvent)) (config : Config Party Executor WorkerThread),
      config.shared = { executor with
          queue := Function.update executor.queue 0 true, masterPending := false, failstry := 0 } ∧
        MasterAt config (if executor.failstry ≠ 0 then cleanFrom executor 0
          else assignFrom executor 0) ∧
        assignments executor pushAndTake =
          (play workerMachine anyStep (goOn .master 2 ++ [(.master, WorkerCommand.take 0)]) past
            config).map fun result ↦ observed assignment result.1 := by
  set pushed : Executor := { executor with queue := Function.update executor.queue 0 true }
  have hpush : ∃ event, workerMachine (.push 0) executor .client =
      some (event, pushed, .client) := by
    by_cases hqueue : executor.queue 0 = true
    · have hsame : pushed = executor := by
        have hupdate : Function.update executor.queue 0 true = executor.queue := by
          rw [← hqueue, Function.update_eq_self]
        simp only [pushed, hupdate]
      rw [hsame]
      exact ⟨_, if_pos hqueue⟩
    · exact ⟨_, if_neg hqueue⟩
  obtain ⟨event, hpush⟩ := hpush
  set ready : Config Party Executor WorkerThread :=
    (((startedConfig executor).advance .client pushed .client).advance .client
      { pushed with masterPending := true } .client).advance .master
      { pushed with masterPending := false } (.master .exchangeFailstry)
  have hready : ready.threads .master = .master .exchangeFailstry :=
    Config.advance_threads_self _ _ _ _
  have hexchange : workerMachine .advance ready.shared (ready.threads .master) =
      some (.internal, { ready.shared with failstry := 0 }, .master (if executor.failstry ≠ 0 then
        cleanFrom executor 0 else assignFrom executor 0)) := by
    rw [hready]
    rfl
  refine ⟨[(.client, event), (.client, .beat), (.master, .internal)] ++ [(.master, .internal)],
    ready.advance .master _ _, rfl, Config.advance_threads_self _ _ _ _, ?_⟩
  calc assignments executor pushAndTake
      = (play workerMachine anyStep (takeFirst 0) [(.client, event)]
          ((startedConfig executor).advance .client pushed .client)).map
            fun result ↦ observed assignment result.1 := by
        rw [assignments, pushAndTake, play_cons hpush, List.nil_append]
    _ = (play workerMachine anyStep (goOn .master 3 ++ [(.master, WorkerCommand.take 0)])
          [(.client, event), (.client, .beat), (.master, .internal)] ready).map
            fun result ↦ observed assignment result.1 := rfl
    _ = _ := congrArg (Option.map _) (play_cons hexchange)

/-- A scan of a bitmap finds its first bit when that is clear. -/
theorem scanStep_first (len : ℕ) {bitmap : ByteMemory} (hclear : bit bitmap 0 = false) :
    scanStep avaible 64 len bitmap (.first 0) = .found 0 := by
  have hsought : bit bitmap 0 ≠ !avaible.sought := by
    rw [hclear]
    decide
  have hregister : 8 ≤ 64 := by decide
  rcases scanStep_next avaible hregister len bitmap (.first 0) with
    ⟨k, hk, -, -, -, hmissed⟩ | ⟨-, hmissed⟩
  · rcases Nat.eq_zero_or_pos k with rfl | hpos
    · exact hk
    · exact absurd (hmissed 0 le_rfl hpos) hsought
  · exact absurd (hmissed 0 le_rfl (Nat.mul_pos (by decide) (Nat.succ_pos _))) hsought

/-- A master before its first scan takes an index three steps later, when the first sub-monitor is
available. -/
theorem play_take_ne_none {config : Config Party Executor WorkerThread}
    {past : List (Party × WorkerEvent)} (hmaster : MasterAt config (.scanAvaible (.first 0)))
    (hlength : 0 < config.shared.length) (havailable : Available config.shared 0)
    (hqueue : config.shared.queue 0 = true) :
    play workerMachine anyStep (goOn .master 2 ++ [(.master, WorkerCommand.take 0)]) past
      config ≠ none := by
  have hscan : workerMachine .advance config.shared (config.threads .master) =
      some (.internal, config.shared, .master (.readFinished 0)) := by
    rw [hmaster]
    show some (WorkerEvent.internal, config.shared, WorkerThread.master (assignAt _ _)) = _
    rw [scanStep_first _ havailable.1, assignAt, if_pos hlength]
  set found := config.advance .master config.shared (.master (.readFinished 0))
  have hread : workerMachine .advance found.shared (found.threads .master) =
      some (.internal, config.shared, .master (.take 0)) := by
    rw [Config.advance_threads_self]
    show some (WorkerEvent.internal, config.shared, WorkerThread.master (if _ then _ else _)) = _
    rw [show found.shared = config.shared from rfl, if_neg havailable.2]
  set ready := found.advance .master config.shared (.master (.take 0))
  have htake : ∃ executor, workerMachine (.take 0) ready.shared (ready.threads .master) =
      some (.taken 0 0, executor, .master (.storeFinished 0)) := by
    rw [Config.advance_threads_self]
    exact ⟨_, congrArg (Option.map _) (if_pos hqueue)⟩
  obtain ⟨executor, htake⟩ := htake
  have hschedule : goOn .master 2 ++ [(.master, .take 0)] =
      [(Party.master, WorkerCommand.advance), (.master, .advance), (.master, .take 0)] := rfl
  rw [hschedule, play_cons hscan, play_cons hread, play_cons htake]
  exact Option.some_ne_none _

variable {executor : Executor}

/-- Without a clean-up the first scan finds the first sub-monitor, and it takes the index. -/
theorem assignments_pushAndTake_ne_none (hlength : 0 < executor.length)
    (hbytes : 0 < executor.bitmapLength) (havailable : Available executor 0)
    (hfailstry : executor.failstry = 0) : assignments executor pushAndTake ≠ none := by
  obtain ⟨past, config, hshared, hmaster, hplay⟩ := assignments_pushAndTake executor
  have hstart : assignFrom executor 0 = .scanAvaible (.first 0) :=
    congrArg (assignAt executor) (if_neg (not_le.mpr hbytes))
  rw [if_neg (not_not.mpr hfailstry), hstart] at hmaster
  rw [hplay]
  apply mt Option.map_eq_none_iff.mp
  apply play_take_ne_none hmaster
  · rw [hshared]
    exact hlength
  · rw [hshared]
    exact havailable
  · rw [hshared]
    exact Function.update_self 0 true executor.queue

/-- With a clean-up it is at another stage by then. -/
theorem assignments_pushAndTake_eq_none (hbytes : 0 < executor.bitmapLength)
    (hfailstry : executor.failstry ≠ 0) : assignments executor pushAndTake = none := by
  obtain ⟨past, config, -, hmaster, hplay⟩ := assignments_pushAndTake executor
  have hstart : cleanFrom executor 0 = .scanOccupied (.first 0) :=
    congrArg (cleanAt executor) (if_neg (not_le.mpr hbytes))
  rw [if_pos hfailstry, hstart] at hmaster
  rw [hplay, play_take_eq_none 0 2 hmaster (Nat.lt_succ_self 2)]
  rfl

/-- The blocks make no difference exactly when there is a monitor for the master and for every
sub-monitor, the bits of the sub-monitors are clear in both of them, and both or none of them have a
`failstry` that asks for a clean-up. -/
theorem workerIndependent_iff :
    WorkerIndependent registry queue length first second ↔ length < registry.free ∧
      (∀ m < length, bit first.bitmap m = false ∧ bit second.bitmap m = false) ∧
      (length = 0 ∨ (first.failstry = 0 ↔ second.failstry = 0)) := by
  constructor
  · rintro ⟨executor, executor', hfirst, hsecond, havailable, hsame⟩
    obtain ⟨hfree, rfl⟩ := made_eq_some_iff.mp hfirst
    obtain ⟨-, rfl⟩ := made_eq_some_iff.mp hsecond
    refine ⟨hfree, fun m hm ↦ ⟨(havailable m hm).1.1, (havailable m hm).2.1⟩, ?_⟩
    rcases Nat.eq_zero_or_pos length with hzero | hlength
    · exact Or.inl hzero
    have hbytes (block : Block) : 0 < (freshExecutor queue length block).bitmapLength := by
      show 0 < (length + 7) / 8
      omega
    have hsame := hsame pushAndTake
    refine Or.inr ⟨fun hzero ↦ ?_, fun hzero ↦ ?_⟩
    · by_contra hne
      rw [assignments_pushAndTake_eq_none (hbytes second) hne] at hsame
      exact assignments_pushAndTake_ne_none hlength (hbytes first) (havailable 0 hlength).1 hzero
        hsame
    · by_contra hne
      rw [assignments_pushAndTake_eq_none (hbytes first) hne] at hsame
      exact assignments_pushAndTake_ne_none hlength (hbytes second) (havailable 0 hlength).2 hzero
        hsame.symm
  · rintro ⟨hfree, hclear, hfailstry⟩
    refine ⟨_, _, made_eq_some_iff.mpr ⟨hfree, rfl⟩, made_eq_some_iff.mpr ⟨hfree, rfl⟩,
      fun m hm ↦ ?_, (executorAgrees_freshExecutor hclear hfailstry).assignments_eq⟩
    have hfinished (block : Block) : (freshExecutor queue length block).finished m ≠ 0 :=
      (if_pos hm).trans_ne one_ne_zero
    exact ⟨⟨(hclear m hm).1, hfinished first⟩, (hclear m hm).2, hfinished second⟩

end Blocks

end Mcmp.Routines.WorkerCreate
