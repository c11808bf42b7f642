import Mcmp.Foundation.Interleaving
import Mcmp.Utilities.EnvFlags

/-!
# Waking the writer of the dispatcher

dispatcher.c, with the mutex and the condition variable of routine.c. The thread of the writer,
`mcmchDispatcherWriterRuntineHandler`, waits in a loop until it is started, and then in its main
loop until there is something to dispatch. `mcmchDispatcherWriterStart` and
`mcmchDispatcherDestroyWriterInstance` each set a flag and send a signal, the second one then joins
the thread. A step is one access to the flags, one call of the mutex or of the condition variable,
or the end of the thread. A flag is set and cleared by a load and a store of the whole word.

Neither caller holds the mutex, under which the handler tests the flags before it waits. So a signal
can be sent between the test and the wait, where nobody is waiting for it, and a store of the
handler can undo the flag of a caller. `HeadsToWait` says where a signal to close is lost: where the
handler is going to wait before it tests `MCMCHDISPATCHER_FLAG_CLOSURE` again. The start-up loop
does not test that flag before its first wait at all.

`dispatcher_noLostWakeup` is about the runs in which no signal and no store falls into one of these
places: there the handler is never left waiting.
-/

set_option autoImplicit false
set_option relaxedAutoImplicit false

namespace Mcmp.Server.Dispatcher

open Foundation.Interleaving Utilities.EnvFlags

/-! ### The writer and its threads -/

/-- The flags `MCMCHDISPATCHER_FLAG_*`. -/
inductive Flag
  | started
  | closure
  | ondispatch
  | working
  deriving DecidableEq, Repr

def Flag.index : Flag → ℕ
  | started => 0
  | closure => 1
  | ondispatch => 2
  | working => 3

/-- `McmchDispatcherWriterHandler` as its threads share it: the flags, whether the mutex is held,
whether a thread waits on the condition variable and has been sent a wake-up, and whether the thread
of the handler has ended. The handler is the only one that waits. -/
structure Writer where
  flags : BitVec 32
  locked : Bool
  waiting : Bool
  signalled : Bool
  ended : Bool
  deriving DecidableEq, Repr

def Writer.has (writer : Writer) (flag : Flag) : Bool := hasFlag writer.flags flag.index

/-- `mcmchSignalLockBlock`: a thread goes on to a stage when it gets the mutex. -/
def Writer.block {Stage : Type} (writer : Writer) (next : Stage) : Option (Writer × Stage) :=
  if writer.locked then none else some ({ writer with locked := true }, next)

/-- `mcmchSignalLockRelease`. -/
def Writer.release (writer : Writer) : Writer := { writer with locked := false }

/-- `mcmchSignalDispatch`: a signal wakes a thread that is waiting, and no other. -/
def Writer.signal (writer : Writer) : Writer :=
  if writer.waiting then { writer with signalled := true } else writer

/-- The two loops that wait. -/
inductive WaitLoop
  | startUp
  | main
  deriving DecidableEq, Repr

/-- The changes that the handler makes to the flags. -/
inductive FlagUpdate
  | clearWorking
  | setWorking
  | clearOndispatch
  deriving DecidableEq, Repr

def FlagUpdate.apply : FlagUpdate → BitVec 32 → BitVec 32
  | clearWorking, word => clearFlag word Flag.working.index
  | setWorking, word => setFlag word Flag.working.index
  | clearOndispatch, word => clearFlag word Flag.ondispatch.index

/-- Where the handler is: before which access or call, and in which of its loops. -/
inductive HandlerStage
  | start
  | testStarted
  | enterWait (loop : WaitLoop)
  | waiting (loop : WaitLoop)
  | woken (loop : WaitLoop)
  | testWoken (loop : WaitLoop)
  | releaseStarted
  | testClosure
  | block
  | load (update : FlagUpdate)
  | store (update : FlagUpdate) (word : BitVec 32)
  | testOndispatch
  | releaseIdle
  | releaseWorking
  | testNonempty
  | testDrain
  | take
  | releaseClosed
  | ended
  deriving DecidableEq, Repr

/-- What the handler does after a change of the flags. -/
def FlagUpdate.next : FlagUpdate → HandlerStage
  | clearWorking => .testOndispatch
  | setWorking => .load .clearOndispatch
  | clearOndispatch => .releaseWorking

/-- Where a wait that was not for the closure goes back to. -/
def WaitLoop.again : WaitLoop → HandlerStage
  | startUp => .testStarted
  | main => .releaseIdle

/-- The two functions of the caller. -/
inductive Call
  | start
  | destroy
  deriving DecidableEq, Repr

/-- The flag that a call sets. -/
def Call.flag : Call → Flag
  | start => .started
  | destroy => .closure

/-- Where the caller is. -/
inductive CallerStage
  | created
  | load (call : Call)
  | store (call : Call) (word : BitVec 32)
  | signal (call : Call)
  | started
  | join
  | joined
  deriving DecidableEq, Repr

/-- What a call does after its signal: a start returns, and a destruction joins the thread. -/
def Call.next : Call → CallerStage
  | start => .started
  | destroy => .join

inductive Party
  | handler
  | caller
  deriving DecidableEq, Repr

inductive WriterThread
  | handler (stage : HandlerStage)
  | caller (stage : CallerStage)
  deriving DecidableEq, Repr

/-- The events: a step of the handler, and the steps of the caller. A start returns with its
signal. -/
inductive WriterEvent
  | handled
  | called (call : Call)
  | loaded (call : Call)
  | stored (call : Call)
  | signalled (call : Call)
  | joined
  deriving DecidableEq, Repr

/-- What a party can be told to do. A wait ends by a signal or for no reason; what the queue holds
and whether a take succeeds are choices. -/
inductive WriterCommand
  | advance
  | wake
  | wakeSpuriously
  | nonempty (answer : Bool)
  | take (success : Bool)
  | call (call : Call)
  deriving DecidableEq, Repr

/-- `mcmchDispatcherWriterRuntineHandler`. The status of a wait is that of `pthread_cond_wait` on a
mutex that the thread holds, which is success. -/
def handlerStep : WriterCommand → Writer → HandlerStage → Option (Writer × HandlerStage)
  | .advance, writer, .start => writer.block .testStarted
  | .advance, writer, .testStarted =>
    some (writer, if writer.has .started then .releaseStarted else .enterWait .startUp)
  | .advance, writer, .enterWait loop =>
    some ({ writer with locked := false, waiting := true, signalled := false }, .waiting loop)
  | .wake, writer, .waiting loop =>
    if writer.signalled then
      some ({ writer with waiting := false, signalled := false }, .woken loop)
    else none
  | .wakeSpuriously, writer, .waiting loop =>
    some ({ writer with waiting := false, signalled := false }, .woken loop)
  | .advance, writer, .woken loop => writer.block (.testWoken loop)
  | .advance, writer, .testWoken loop =>
    some (writer, if writer.has .closure then .releaseClosed else loop.again)
  | .advance, writer, .releaseStarted => some (writer.release, .testClosure)
  | .advance, writer, .testClosure =>
    if writer.has .closure then some ({ writer with ended := true }, .ended)
    else some (writer, .block)
  | .advance, writer, .block => writer.block (.load .clearWorking)
  | .advance, writer, .load update => some (writer, .store update writer.flags)
  | .advance, writer, .store update word =>
    some ({ writer with flags := update.apply word }, update.next)
  | .advance, writer, .testOndispatch =>
    some (writer, if writer.has .ondispatch then .load .setWorking else .enterWait .main)
  | .advance, writer, .releaseIdle => some (writer.release, .testClosure)
  | .advance, writer, .releaseWorking => some (writer.release, .testNonempty)
  | .nonempty answer, writer, .testNonempty =>
    some (writer, if answer then .testDrain else .testClosure)
  | .advance, writer, .testDrain =>
    some (writer, if writer.has .closure then .testClosure else .take)
  | .take success, writer, .take => some (writer, if success then .testNonempty else .testClosure)
  | .advance, writer, .releaseClosed => some ({ writer.release with ended := true }, .ended)
  | _, _, _ => none

/-- `mcmchDispatcherWriterStart` and `mcmchDispatcherDestroyWriterInstance`. -/
def callerStep : WriterCommand → Writer → CallerStage → Option (WriterEvent × Writer × CallerStage)
  | .call call, writer, .created => some (.called call, writer, .load call)
  | .call .destroy, writer, .started => some (.called .destroy, writer, .load .destroy)
  | .advance, writer, .load call => some (.loaded call, writer, .store call writer.flags)
  | .advance, writer, .store call word =>
    some (.stored call, { writer with flags := setFlag word call.flag.index }, .signal call)
  | .advance, writer, .signal call => some (.signalled call, writer.signal, call.next)
  | .advance, writer, .join => if writer.ended then some (.joined, writer, .joined) else none
  | _, _, _ => none

/-- The two threads. -/
def writerMachine : Machine WriterCommand Writer WriterThread WriterEvent
  | command, writer, .handler stage =>
    (handlerStep command writer stage).map fun (writer, stage) ↦ (.handled, writer, .handler stage)
  | command, writer, .caller stage =>
    (callerStep command writer stage).map fun (event, writer, stage) ↦
      (event, writer, .caller stage)

/-- A writer that has been created, with its thread. -/
def created : Config Party Writer WriterThread :=
  ⟨⟨0, false, false, false, false⟩, fun party ↦
    match party with
    | .handler => .handler .start
    | .caller => .caller .created⟩

/-- The runs of a writer. -/
abbrev WriterRun (guard : Guard Party Writer WriterThread WriterEvent) :=
  Run writerMachine.program guard created

/-! ### The wake-ups -/

/-- The start has returned. -/
def Started (history : List (Party × WriterEvent)) : Prop :=
  (Party.caller, WriterEvent.signalled .start) ∈ history

instance (history : List (Party × WriterEvent)) : Decidable (Started history) :=
  inferInstanceAs (Decidable (_ ∈ _))

/-- The handler waits in a loop, and no wake-up is pending. -/
def Stuck (config : Config Party Writer WriterThread) (loop : WaitLoop) : Prop :=
  config.threads .handler = .handler (.waiting loop) ∧ config.shared.signalled = false

instance (config : Config Party Writer WriterThread) (loop : WaitLoop) :
    Decidable (Stuck config loop) :=
  inferInstanceAs (Decidable (_ ∧ _))

/-- No wake-up is lost: the handler is not stuck in its start-up loop after the start, nor in either
loop while the destruction joins it. -/
structure NoLostWakeup (history : List (Party × WriterEvent))
    (config : Config Party Writer WriterThread) : Prop where
  start : Started history → ¬ Stuck config .startUp
  destroy : config.threads .caller = .caller .join → ∀ loop, ¬ Stuck config loop

/-- The handler is going to wait before it tests `MCMCHDISPATCHER_FLAG_CLOSURE` again. -/
def HeadsToWait (flags : BitVec 32) : HandlerStage → Prop
  | .start | .testStarted => hasFlag flags Flag.started.index = false
  | .enterWait _ => True
  | .block | .testOndispatch => hasFlag flags Flag.ondispatch.index = false
  | .load update => update = .clearWorking ∧ hasFlag flags Flag.ondispatch.index = false
  | .store update word => update = .clearWorking ∧ hasFlag word Flag.ondispatch.index = false
  | _ => False

instance (flags : BitVec 32) (stage : HandlerStage) : Decidable (HeadsToWait flags stage) := by
  unfold HeadsToWait
  split <;> infer_instance

/-- A store of the handler that overwrites the flags of the others. -/
def HandlerStage.Stores : HandlerStage → Prop
  | .store _ _ => True
  | _ => False

instance (stage : HandlerStage) : Decidable stage.Stores := by
  unfold HandlerStage.Stores
  split <;> infer_instance

/-- The signal of the start is not sent between the test and the wait of the start-up loop. The flag
of the destruction is not stored between a load and a store of the handler, and its signal is not
sent while the handler heads to a wait. -/
def SignalsHeard : Guard Party Writer WriterThread WriterEvent := fun _ config _ event ↦
  match event, config.threads .handler with
  | .signalled .start, .handler stage => stage ≠ .enterWait .startUp
  | .stored .destroy, .handler stage => ¬ stage.Stores
  | .signalled .destroy, .handler stage => ¬ HeadsToWait config.shared.flags stage
  | _, _ => True

instance (history : List (Party × WriterEvent)) (config : Config Party Writer WriterThread)
    (party : Party) (event : WriterEvent) :
    Decidable (SignalsHeard history config party event) := by
  unfold SignalsHeard
  split <;> infer_instance

/-! ### What one step does -/

section Steps

variable {writer writer' : Writer} {stage stage' : HandlerStage} {command : WriterCommand}

theorem Flag.index_lt (flag : Flag) : flag.index < 32 := by cases flag <;> decide

theorem Flag.index_inj {flag other : Flag} : flag.index = other.index ↔ flag = other := by
  cases flag <;> cases other <;> decide

theorem has_setFlag (word : BitVec 32) (flag other : Flag) :
    hasFlag (setFlag word flag.index) other.index =
      (hasFlag word other.index || decide (flag = other)) := by
  rw [hasFlag_setFlag _ other.index_lt]
  simp only [Flag.index_inj]

/-- The handler changes the flags that only it uses. -/
theorem FlagUpdate.has_apply (update : FlagUpdate) (word : BitVec 32) {flag : Flag}
    (hflag : flag = .started ∨ flag = .closure) :
    hasFlag (update.apply word) flag.index = hasFlag word flag.index := by
  have hlt := flag.index_lt
  cases update <;> rcases hflag with rfl | rfl <;>
    simp [FlagUpdate.apply, hasFlag_setFlag _ hlt, hasFlag_clearFlag _ hlt, Flag.index_inj]

/-- The stages behind the start-up loop, as far as they write the flags or can come to do so. -/
def HandlerStage.IsStarted : HandlerStage → Prop
  | .start | .testStarted | .releaseClosed | .ended => False
  | .enterWait loop | .waiting loop | .woken loop | .testWoken loop => loop = .main
  | _ => True

/-- The handler is waiting. -/
def HandlerStage.isWaiting : HandlerStage → Bool
  | .waiting _ => true
  | _ => false

/-- A flag is set, and the handler is not about to store a word without it. -/
structure Keeps (flag : Flag) (writer : Writer) (stage : HandlerStage) : Prop where
  has : writer.has flag = true
  stored : ∀ update word, stage = .store update word → hasFlag word flag.index = true

theorem HandlerStage.Stores.isStarted (hstores : stage.Stores) : stage.IsStarted := by
  cases stage <;> trivial

theorem Keeps.of_not_stores {flag : Flag} (hflag : writer.has flag = true)
    (hstores : ¬ stage.Stores) : Keeps flag writer stage := by
  refine ⟨hflag, ?_⟩
  rintro update word rfl
  exact absurd trivial hstores

/-- What a step of the handler does to the flags and to the waiting. -/
structure HandlerMoves (writer : Writer) (stage : HandlerStage) (writer' : Writer)
    (stage' : HandlerStage) : Prop where
  keeps : ∀ flag, flag = .started ∨ flag = .closure → Keeps flag writer stage →
    Keeps flag writer' stage'
  started_of : stage'.IsStarted → stage.IsStarted ∨ writer.has .started = true
  has_started : (stage.IsStarted → Keeps .started writer stage) → writer'.has .started = true →
    writer.has .started = true
  waiting : writer.waiting = stage.isWaiting → writer'.waiting = stage'.isWaiting
  waits : ∀ loop, stage' = .waiting loop → stage = .enterWait loop
  enters : stage' = .enterWait .startUp → writer.has .started = false
  heads : HeadsToWait writer'.flags stage' →
    HeadsToWait writer.flags stage ∨ writer.has .closure = false

/-- A step that leaves the flags as they are. -/
theorem handlerMoves_of_flags (hflags : writer'.flags = writer.flags)
    (hloaded : ∀ update word, stage' = .store update word → word = writer.flags)
    (hstarted : stage'.IsStarted → stage.IsStarted ∨ writer.has .started = true)
    (hwaiting : writer.waiting = stage.isWaiting → writer'.waiting = stage'.isWaiting)
    (hwaits : ∀ loop, stage' = .waiting loop → stage = .enterWait loop)
    (henters : stage' = .enterWait .startUp → writer.has .started = false)
    (hheads : HeadsToWait writer.flags stage' →
      HeadsToWait writer.flags stage ∨ writer.has .closure = false) :
    HandlerMoves writer stage writer' stage' := by
  have hhas (flag : Flag) : writer'.has flag = writer.has flag := by
    rw [Writer.has, hflags, Writer.has]
  refine ⟨fun flag _ hkeeps ↦ ⟨(hhas flag).trans hkeeps.has, ?_⟩, hstarted,
    fun _ hset ↦ (hhas _).symm.trans hset, hwaiting, hwaits, henters, ?_⟩
  · intro update word hstage
    rw [hloaded update word hstage]
    exact hkeeps.has
  · rwa [hflags]

/-- The store of a flag that only the handler uses. -/
theorem handlerMoves_store (writer : Writer) (update : FlagUpdate) (word : BitVec 32) :
    HandlerMoves writer (.store update word) { writer with flags := update.apply word }
      update.next := by
  have hnext : ∀ other word', update.next ≠ .store other word' := by
    cases update <;> simp [FlagUpdate.next]
  refine ⟨fun flag hflag hkeeps ↦ ⟨?_, ?_⟩, fun _ ↦ Or.inl trivial, fun hkeeps _ ↦ ?_, ?_, ?_, ?_,
    ?_⟩
  · rw [Writer.has, update.has_apply word hflag]
    exact hkeeps.stored update word rfl
  · intro other word' hstage
    exact absurd hstage (hnext other word')
  · exact (hkeeps trivial).has
  · cases update <;> simp [FlagUpdate.next, HandlerStage.isWaiting]
  · cases update <;> simp [FlagUpdate.next]
  · cases update <;> simp [FlagUpdate.next]
  · cases update <;>
      simp +contextual [FlagUpdate.next, FlagUpdate.apply, HeadsToWait, hasFlag_clearFlag,
        Flag.index]

/-- A step of the handler is a store, a test of a flag, or one that has nothing to do with the
flags. -/
theorem handlerStep_moves (hstep : handlerStep command writer stage = some (writer', stage')) :
    HandlerMoves writer stage writer' stage' := by
  have hclear {flag : Flag} (hnot : ¬ writer.has flag = true) :
      hasFlag writer.flags flag.index = false := Bool.eq_false_iff.mpr hnot
  unfold handlerStep Writer.block at hstep
  split at hstep
  all_goals
    try split at hstep
    all_goals
      simp only [Option.some.injEq, Prod.mk.injEq, reduceCtorEq] at hstep
  all_goals
    obtain ⟨rfl, rfl⟩ := hstep
  case h_12 update word => exact handlerMoves_store writer update word
  case h_2.isTrue hstarted =>
    refine handlerMoves_of_flags rfl ?_ (fun _ ↦ Or.inr hstarted) ?_ ?_ ?_ ?_
    all_goals simp [HandlerStage.isWaiting, HeadsToWait]
  case h_2.isFalse hstarted =>
    refine handlerMoves_of_flags rfl ?_ ?_ ?_ ?_ (fun _ ↦ hclear hstarted)
      fun _ ↦ Or.inl (hclear hstarted)
    all_goals simp [HandlerStage.isWaiting, HandlerStage.IsStarted]
  case h_7.isFalse loop hclosure =>
    refine handlerMoves_of_flags rfl ?_ ?_ ?_ ?_ ?_ fun _ ↦ Or.inr (hclear hclosure)
    all_goals cases loop <;> simp [WaitLoop.again, HandlerStage.isWaiting, HandlerStage.IsStarted]
  case h_9.isFalse hclosure =>
    refine handlerMoves_of_flags rfl ?_ ?_ ?_ ?_ ?_ fun _ ↦ Or.inr (hclear hclosure)
    all_goals simp [HandlerStage.isWaiting, HandlerStage.IsStarted]
  case h_13.isFalse hondispatch =>
    refine handlerMoves_of_flags rfl ?_ ?_ ?_ ?_ ?_ fun _ ↦ Or.inl (hclear hondispatch)
    all_goals simp [HandlerStage.isWaiting, HandlerStage.IsStarted]
  all_goals
    refine handlerMoves_of_flags rfl ?_ ?_ ?_ ?_ ?_ ?_
    all_goals
      simp +contextual [HandlerStage.isWaiting, HandlerStage.IsStarted, HeadsToWait, Writer.release]

/-- A step of the caller: a call starts, loads the flags, stores them, sends its signal, or has
joined the thread. -/
theorem callerStep_cases {stage stage' : CallerStage} {event : WriterEvent}
    (hstep : callerStep command writer stage = some (event, writer', stage')) :
    (∃ call, event = .called call ∧ writer' = writer ∧ stage' = .load call) ∨
      (∃ call, event = .loaded call ∧ writer' = writer ∧ stage' = .store call writer.flags) ∨
      (∃ call word, stage = .store call word ∧ event = .stored call ∧
        writer' = { writer with flags := setFlag word call.flag.index } ∧ stage' = .signal call) ∨
      (∃ call, stage = .signal call ∧ event = .signalled call ∧ writer' = writer.signal ∧
        stage' = call.next) ∨
      (stage = .join ∧ event = .joined ∧ writer' = writer ∧ stage' = .joined) := by
  unfold callerStep at hstep
  split at hstep
  all_goals
    try split at hstep
    all_goals
      simp only [Option.some.injEq, Prod.mk.injEq, reduceCtorEq] at hstep
  all_goals
    obtain ⟨rfl, rfl, rfl⟩ := hstep
    simp

end Steps

/-! ### Runs without a lost wake-up -/

/-- What holds between the two threads when no signal and no store falls into a wrong place. -/
structure Heard (history : List (Party × WriterEvent)) (writer : Writer) (stage : HandlerStage)
    (caller : CallerStage) : Prop where
  waiting : writer.waiting = stage.isWaiting
  isStarted : stage.IsStarted → Keeps .started writer stage
  begun : caller = .signal .start ∨ Started history → Keeps .started writer stage
  remembered : ∀ word, caller = .store .destroy word → writer.has .started = true →
    hasFlag word Flag.started.index = true
  awake : Started history → stage ≠ .enterWait .startUp ∧
    (stage = .waiting .startUp → writer.signalled = true)
  closing : caller = .signal .destroy ∨ caller = .join ∨ caller = .joined →
    Keeps .closure writer stage
  leaving : caller = .join ∨ caller = .joined → ¬ HeadsToWait writer.flags stage ∧
    ∀ loop, stage = .waiting loop → writer.signalled = true

section Runs

variable {history : List (Party × WriterEvent)} {writer writer' : Writer}
  {stage stage' : HandlerStage} {caller caller' : CallerStage} {command : WriterCommand}

theorem started_concat {party : Party} {event : WriterEvent} :
    Started (history ++ [(party, event)]) ↔
      Started history ∨ party = .caller ∧ event = .signalled .start := by
  rw [Started, List.mem_append, List.mem_singleton, Prod.mk.injEq, Started]
  exact or_congr_right (and_congr eq_comm eq_comm)

theorem Writer.has_signal (writer : Writer) (flag : Flag) :
    writer.signal.has flag = writer.has flag := by
  unfold Writer.signal
  split <;> rfl

theorem Writer.signal_flags (writer : Writer) : writer.signal.flags = writer.flags := by
  unfold Writer.signal
  split <;> rfl

theorem Writer.signal_waiting (writer : Writer) : writer.signal.waiting = writer.waiting := by
  unfold Writer.signal
  split <;> rfl

/-- A signal is pending where the handler waits. -/
theorem Writer.signal_signalled (hwaiting : writer.waiting = true) :
    writer.signal.signalled = true := by
  rw [Writer.signal, if_pos hwaiting]

theorem Keeps.signal {flag : Flag} (h : Keeps flag writer stage) : Keeps flag writer.signal stage :=
  ⟨(writer.has_signal flag).trans h.has, h.stored⟩

theorem Heard.handler (h : Heard history writer stage caller)
    (hstep : handlerStep command writer stage = some (writer', stage')) :
    Heard (history ++ [(.handler, .handled)]) writer' stage' caller := by
  have hmoves := handlerStep_moves hstep
  have hstarted : Started (history ++ [(Party.handler, WriterEvent.handled)]) ↔
      Started history := by
    simp [started_concat]
  refine ⟨hmoves.waiting h.waiting, fun hstage ↦ ?_, fun hbegun ↦ ?_, fun word hcaller hset ↦ ?_,
    fun hreturned ↦ ?_, fun hclosing ↦ ?_, fun hleaving ↦ ?_⟩
  · apply hmoves.keeps .started (Or.inl rfl)
    by_cases hbefore : stage.IsStarted
    · exact h.isStarted hbefore
    · have hset := (hmoves.started_of hstage).resolve_left hbefore
      exact Keeps.of_not_stores hset fun hstores ↦ hbefore hstores.isStarted
  · rw [hstarted] at hbegun
    exact hmoves.keeps .started (Or.inl rfl) (h.begun hbegun)
  · exact h.remembered word hcaller (hmoves.has_started h.isStarted hset)
  · rw [hstarted] at hreturned
    have hkeeps := h.begun (Or.inr hreturned)
    refine ⟨fun henters ↦ ?_, fun hwaits ↦ ?_⟩
    · have hunset := hmoves.enters henters
      rw [hkeeps.has] at hunset
      exact Bool.noConfusion hunset
    · exact absurd (hmoves.waits .startUp hwaits) (h.awake hreturned).1
  · exact hmoves.keeps .closure (Or.inr rfl) (h.closing hclosing)
  · obtain ⟨hheads, -⟩ := h.leaving hleaving
    refine ⟨fun hheads' ↦ ?_, fun loop hwaits ↦ ?_⟩
    · rcases hmoves.heads hheads' with hbefore | hunset
      · exact hheads hbefore
      · rw [(h.closing (Or.inr hleaving)).has] at hunset
        exact Bool.noConfusion hunset
    · rw [hmoves.waits loop hwaits] at hheads
      exact absurd trivial hheads

/-- A step of the caller that changes nothing that is shared. -/
theorem Heard.of_same (h : Heard history writer stage caller) {event : WriterEvent}
    (hevent : event ≠ .signalled .start) (hsignal : ∀ call, caller' ≠ .signal call)
    (hremembered : ∀ word, caller' = .store .destroy word → word = writer.flags)
    (hjoin : caller' = .join ∨ caller' = .joined → caller = .join ∨ caller = .joined) :
    Heard (history ++ [(.caller, event)]) writer stage caller' := by
  have hstarted : Started (history ++ [(Party.caller, event)]) ↔ Started history := by
    simp [started_concat, hevent]
  refine ⟨h.waiting, h.isStarted, fun hbegun ↦ ?_, fun word hcaller hset ↦ ?_, fun hreturned ↦ ?_,
    fun hclosing ↦ ?_, fun hleaving ↦ h.leaving (hjoin hleaving)⟩
  · exact h.begun (Or.inr (hstarted.mp (hbegun.resolve_left (hsignal _))))
  · rw [hremembered word hcaller]
    exact hset
  · exact h.awake (hstarted.mp hreturned)
  · exact h.closing (Or.inr (hjoin (hclosing.resolve_left (hsignal _))))

/-- The flag of a call is stored. A destruction stores it while the handler has no old word in its
hands, and the word that it stores itself has the flag of a start that has returned. -/
theorem Heard.store {call : Call} {word : BitVec 32}
    (h : Heard history writer stage (.store call word))
    (hguard : call = .destroy → ¬ stage.Stores) :
    Heard (history ++ [(.caller, .stored call)])
      { writer with flags := setFlag word call.flag.index } stage (.signal call) := by
  have hstarted : Started (history ++ [(Party.caller, WriterEvent.stored call)]) ↔
      Started history := by
    simp [started_concat]
  have hset (hkeeps : Keeps .started writer stage) :
      Keeps .started { writer with flags := setFlag word call.flag.index } stage := by
    refine ⟨?_, hkeeps.stored⟩
    rw [Writer.has, has_setFlag, Bool.or_eq_true, decide_eq_true_eq]
    cases call with
    | start => exact Or.inr rfl
    | destroy => exact Or.inl (h.remembered word rfl hkeeps.has)
  refine ⟨h.waiting, fun hstage ↦ hset (h.isStarted hstage), fun hbegun ↦ ?_, by simp,
    fun hreturned ↦ h.awake (hstarted.mp hreturned), fun hclosing ↦ ?_, by simp⟩
  · rcases hbegun with hcall | hreturned
    · obtain rfl := CallerStage.signal.inj hcall
      refine ⟨?_, fun update other hstage ↦ ?_⟩
      · rw [Writer.has, has_setFlag]
        simp [Call.flag]
      · subst hstage
        exact (h.isStarted trivial).stored update other rfl
    · exact hset (h.begun (Or.inr (hstarted.mp hreturned)))
  · obtain rfl : call = .destroy := by simpa using hclosing
    apply Keeps.of_not_stores _ (hguard rfl)
    rw [Writer.has, has_setFlag]
    simp [Call.flag]

/-- The signal of a call is sent where it is heard. -/
theorem Heard.signal {call : Call} (h : Heard history writer stage (.signal call))
    (hstart : call = .start → stage ≠ .enterWait .startUp)
    (hdestroy : call = .destroy → ¬ HeadsToWait writer.flags stage) :
    Heard (history ++ [(.caller, .signalled call)]) writer.signal stage call.next := by
  have hpending (loop : WaitLoop) (hstage : stage = .waiting loop) :
      writer.signal.signalled = true := by
    apply Writer.signal_signalled
    rw [h.waiting, hstage]
    rfl
  refine ⟨(Writer.signal_waiting writer).trans h.waiting, fun hstage ↦ (h.isStarted hstage).signal,
    fun hbegun ↦ ?_, ?_, fun hreturned ↦ ⟨?_, hpending .startUp⟩, fun hclosing ↦ ?_,
    fun hleaving ↦ ⟨?_, hpending⟩⟩
  · cases call with
    | start => exact (h.begun (Or.inl rfl)).signal
    | destroy =>
      have hreturned : Started history := by simpa [started_concat, Call.next] using hbegun
      exact (h.begun (Or.inr hreturned)).signal
  · cases call <;> simp [Call.next]
  · cases call with
    | start => exact hstart rfl
    | destroy =>
      have hreturned : Started history := by simpa [started_concat] using hreturned
      exact (h.awake hreturned).1
  · obtain rfl : call = .destroy := by cases call <;> simp [Call.next] at hclosing ⊢
    exact (h.closing (Or.inl rfl)).signal
  · obtain rfl : call = .destroy := by cases call <;> simp [Call.next] at hleaving ⊢
    rw [Writer.signal_flags]
    exact hdestroy rfl

/-- The two threads of a configuration, in agreement. -/
def HeardIn (history : List (Party × WriterEvent)) (config : Config Party Writer WriterThread) :
    Prop :=
  ∃ stage caller, config.threads .handler = .handler stage ∧
    config.threads .caller = .caller caller ∧ Heard history config.shared stage caller

theorem heard_of_run {config : Config Party Writer WriterThread}
    (hrun : WriterRun SignalsHeard history config) : HeardIn history config := by
  apply Run.invariant HeardIn _ _ hrun
  · refine ⟨.start, .created, rfl, rfl, rfl, ?_, ?_, ?_, ?_, ?_, ?_⟩
    all_goals simp [HandlerStage.IsStarted, Started]
  · rintro history config party event writer thread - ⟨stage, caller, hhandler, hcaller, h⟩ hguard
      ⟨command, hcommand⟩
    cases party with
    | handler =>
      rw [hhandler] at hcommand
      obtain ⟨⟨writer', stage'⟩, hstep, hresult⟩ := Option.map_eq_some_iff.mp hcommand
      simp only [Prod.mk.injEq] at hresult
      obtain ⟨rfl, rfl, rfl⟩ := hresult
      exact ⟨stage', caller, Config.advance_threads_self .., by simp [hcaller], h.handler hstep⟩
    | caller =>
      rw [hcaller] at hcommand
      obtain ⟨⟨event', writer', caller'⟩, hstep, hresult⟩ := Option.map_eq_some_iff.mp hcommand
      simp only [Prod.mk.injEq] at hresult
      obtain ⟨rfl, rfl, rfl⟩ := hresult
      refine ⟨stage, caller', by simp [hhandler], Config.advance_threads_self .., ?_⟩
      rw [Config.advance_shared]
      rcases callerStep_cases hstep with ⟨call, rfl, rfl, rfl⟩ | ⟨call, rfl, rfl, rfl⟩ |
        ⟨call, word, rfl, rfl, rfl, rfl⟩ | ⟨call, rfl, rfl, rfl, rfl⟩ | ⟨rfl, rfl, rfl, rfl⟩
      · apply h.of_same <;> simp
      · apply h.of_same <;> simp
      · apply h.store
        rintro rfl
        simpa [SignalsHeard, hhandler] using hguard
      · apply h.signal
        · rintro rfl
          simpa [SignalsHeard, hhandler] using hguard
        · rintro rfl
          simpa [SignalsHeard, hhandler] using hguard
      · apply h.of_same <;> simp

/-- In a run whose signals are all sent where they are heard no wake-up is lost. -/
theorem dispatcher_noLostWakeup {config : Config Party Writer WriterThread}
    (hrun : WriterRun SignalsHeard history config) : NoLostWakeup history config := by
  obtain ⟨stage, caller, hhandler, hcaller, h⟩ := heard_of_run hrun
  refine ⟨fun hstarted ⟨hwaits, hquiet⟩ ↦ ?_, fun hjoin loop ⟨hwaits, hquiet⟩ ↦ ?_⟩
  · rw [hhandler, WriterThread.handler.injEq] at hwaits
    have hpending := (h.awake hstarted).2 hwaits
    rw [hquiet] at hpending
    exact Bool.noConfusion hpending
  · rw [hhandler, WriterThread.handler.injEq] at hwaits
    rw [hcaller, WriterThread.caller.injEq] at hjoin
    have hpending := (h.leaving (Or.inl hjoin)).2 loop hwaits
    rw [hquiet] at hpending
    exact Bool.noConfusion hpending

end Runs

/-- A number of steps of a party. -/
def goOn (party : Party) (steps : ℕ) : List (Party × WriterCommand) :=
  List.replicate steps (party, .advance)

/-- The writer is started while it waits, goes on to its main loop and is destroyed while it waits
there: the wake-up is pending. -/
theorem dispatcher_noLostWakeup_waiting :
    ∃ history config, WriterRun SignalsHeard history config ∧ Started history ∧
      config.threads .caller = .caller .join ∧
      config.threads .handler = .handler (.waiting .main) ∧ NoLostWakeup history config := by
  obtain ⟨history, config, hrun, hview⟩ := exists_run_of_play_view writerMachine SignalsHeard
    created
    [goOn .handler 3, [(.caller, .call .start)], goOn .caller 3, [(.handler, .wake)],
      goOn .handler 10, [(.caller, .call .destroy)], goOn .caller 3].flatten
    (fun history config ↦ (decide (Started history), config.threads .caller,
      config.threads .handler))
    (true, .caller .join, .handler (.waiting .main)) (by decide +kernel)
  simp only [Prod.mk.injEq, decide_eq_true_eq] at hview
  exact ⟨history, config, hrun, hview.1, hview.2.1, hview.2.2, dispatcher_noLostWakeup hrun⟩

/-- The handler has tested its flag when the start sets it, and waits after the signal; and a writer
that is destroyed before its thread runs is waited for without end. -/
theorem exists_lostWakeup :
    (∃ history config, WriterRun anyStep history config ∧ Started history ∧
      Stuck config .startUp) ∧
    ∃ history config, WriterRun anyStep history config ∧
      config.threads .caller = .caller .join ∧ Stuck config .startUp := by
  constructor
  · obtain ⟨history, config, hrun, hview⟩ := exists_run_of_play_view writerMachine anyStep created
      [goOn .handler 2, [(.caller, .call .start)], goOn .caller 3, goOn .handler 1].flatten
      (fun history config ↦ (decide (Started history), decide (Stuck config .startUp)))
      (true, true) (by decide +kernel)
    simp only [Prod.mk.injEq, decide_eq_true_eq] at hview
    exact ⟨history, config, hrun, hview⟩
  · obtain ⟨history, config, hrun, hview⟩ := exists_run_of_play_view writerMachine anyStep created
      [[(.caller, .call .destroy)], goOn .caller 3, goOn .handler 3].flatten
      (fun _ config ↦ (config.threads .caller, decide (Stuck config .startUp)))
      (.caller .join, true) (by decide +kernel)
    simp only [Prod.mk.injEq, decide_eq_true_eq] at hview
    exact ⟨history, config, hrun, hview⟩

end Mcmp.Server.Dispatcher
