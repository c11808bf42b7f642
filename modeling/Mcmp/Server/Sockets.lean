import Mathlib.Data.List.Nodup
import Mcmp.Foundation.ExclusiveHolders
import Mcmp.Foundation.Interleaving

/-!
# The sockets of a server

`mcmchServerCreate` and `mcmchServerClose` of the server.c for Unix. A creation opens an epoll
instance and two sockets, binds the sockets to the port, and adds them to the epoll instance. Each
of any number of threads creates and closes servers, and a step is one system call. A call that
opens a descriptor returns any free number, or fails; the other calls may fail as well. Descriptors
of other parts of the process only restrict which numbers are free.

The loader of the second socket stores it in `listen4fd`, over the first one, and goes on with
`listen6fd`, which stays `-1`. So the first socket, the only one that is bound to the port, is lost.
It is open for ever (`serverSockets_ledger`), and no epoll instance ever watches a socket that is
bound to a port (`serverSockets_deaf`).
-/

set_option autoImplicit false
set_option relaxedAutoImplicit false

namespace Mcmp.Server.Sockets

open Foundation.ExclusiveHolders Foundation.Interleaving

/-! ### The descriptors of the process -/

/-- What a descriptor is open on: a datagram socket, with the port that it is bound to, or an epoll
instance. -/
inductive Descriptor
  | datagram (port : Option ℕ)
  | epoll
  deriving DecidableEq, Repr

/-- The open descriptors, and the pairs of an epoll instance and a descriptor that it watches. -/
structure Kernel where
  descriptors : ℕ → Option Descriptor
  watched : List (ℕ × ℕ)

/-- The open descriptors. -/
def Kernel.opened (kernel : Kernel) : Set ℕ := {fd | kernel.descriptors fd ≠ none}

/-- A call that returned a descriptor which was free, or that failed. -/
def Kernel.allocate (kernel : Kernel) (fd : Option ℕ) (descriptor : Descriptor) : Option Kernel :=
  match fd with
  | none => some kernel
  | some fd =>
    if kernel.descriptors fd = none then
      some { kernel with descriptors := Function.update kernel.descriptors fd (some descriptor) }
    else none

/-- `bind`. It fails for `-1`, for a socket that has a port, and when it is refused. -/
def Kernel.bind (kernel : Kernel) (fd : Option ℕ) (port : ℕ) (granted : Bool) : Kernel :=
  match fd with
  | none => kernel
  | some fd =>
    if granted ∧ kernel.descriptors fd = some (.datagram none) then
      { kernel with
        descriptors := Function.update kernel.descriptors fd (some (.datagram (some port))) }
    else kernel

/-- `epoll_ctl` with `EPOLL_CTL_ADD`. -/
def Kernel.epollCtlAdd (kernel : Kernel) (epollfd fd : Option ℕ) (granted : Bool) : Kernel :=
  match epollfd, fd with
  | some epollfd, some fd =>
    if granted then { kernel with watched := (epollfd, fd) :: kernel.watched } else kernel
  | _, _ => kernel

/-- `close`. A descriptor that is closed is not watched any more. -/
def Kernel.close (kernel : Kernel) (fd : Option ℕ) : Kernel :=
  match fd with
  | none => kernel
  | some fd =>
    { descriptors := Function.update kernel.descriptors fd none
      watched := kernel.watched.filter fun pair ↦ pair.1 ≠ fd ∧ pair.2 ≠ fd }

/-! ### The servers -/

/-- The descriptors of a server; `none` is `-1`. -/
structure McmchServer where
  listen4fd : Option ℕ
  listen6fd : Option ℕ
  epollfd : Option ℕ
  deriving DecidableEq, Repr

/-- What a thread calls next: it has no server and calls `epoll_create1`; it calls `socket` and
`bind` for the first socket and for the second one; it adds the one and the other; it has a server
and closes the one socket, the other, and the epoll instance. -/
inductive ServerStage
  | idle
  | polled
  | opened4
  | bound4
  | opened6
  | bound6
  | added4
  | running
  | closed4
  | closed6
  deriving DecidableEq, Repr

/-- A thread and its server. -/
structure ServerThread where
  stage : ServerStage
  port : ℕ
  server : McmchServer
  deriving DecidableEq, Repr

/-- The system calls. The second call of `socket` is told with what was in `listen4fd` before. -/
inductive ServerEvent
  | created (fd : Option ℕ)
  | opened4 (fd : Option ℕ)
  | bound4
  | opened6 (before fd : Option ℕ)
  | bound6
  | added4
  | added6
  | closed4
  | closed6
  | closed
  deriving DecidableEq, Repr

/-- What can happen: a creation begins, a call returns a descriptor or `-1`, a call is granted or
refused, a server is closed. -/
inductive ServerCommand
  | create (port : ℕ) (fd : Option ℕ)
  | opens (fd : Option ℕ)
  | call (granted : Bool)
  | close
  deriving DecidableEq, Repr

/-- The next step of a thread that creates or closes its server. -/
def mcmchServerCalls (kernel : Kernel) (thread : ServerThread) :
    ServerCommand → ServerStage → Option (ServerEvent × Kernel × ServerThread)
  | .create port fd, .idle =>
    (kernel.allocate fd .epoll).map fun kernel ↦
      (.created fd, kernel, ⟨.polled, port, ⟨none, none, fd⟩⟩)
  | .opens fd, .polled =>
    (kernel.allocate fd (.datagram none)).map fun kernel ↦
      (.opened4 fd, kernel,
        { thread with stage := .opened4, server := { thread.server with listen4fd := fd } })
  | .call granted, .opened4 =>
    some (.bound4, kernel.bind thread.server.listen4fd thread.port granted,
      { thread with stage := .bound4 })
  | .opens fd, .bound4 =>
    -- `__priv__mcmch__load_ipv6_server` stores its socket in `listen4fd`.
    (kernel.allocate fd (.datagram none)).map fun kernel ↦
      (.opened6 thread.server.listen4fd fd, kernel,
        { thread with stage := .opened6, server := { thread.server with listen4fd := fd } })
  | .call granted, .opened6 =>
    some (.bound6, kernel.bind thread.server.listen6fd thread.port granted,
      { thread with stage := .bound6 })
  | .call granted, .bound6 =>
    some (.added4, kernel.epollCtlAdd thread.server.epollfd thread.server.listen4fd granted,
      { thread with stage := .added4 })
  | .call granted, .added4 =>
    some (.added6, kernel.epollCtlAdd thread.server.epollfd thread.server.listen6fd granted,
      { thread with stage := .running })
  | .close, .running =>
    some (.closed4, kernel.close thread.server.listen4fd, { thread with stage := .closed4 })
  | .close, .closed4 =>
    some (.closed6, kernel.close thread.server.listen6fd, { thread with stage := .closed6 })
  | .close, .closed6 =>
    some (.closed, kernel.close thread.server.epollfd, { thread with stage := .idle })
  | _, _ => none

/-- The threads of a process. -/
def serverMachine : Machine ServerCommand Kernel ServerThread ServerEvent :=
  fun command kernel thread ↦ mcmchServerCalls kernel thread command thread.stage

/-- A history of a process. -/
abbrev ServerHistory := List (ℕ × ServerEvent)

/-- A process between two system calls. -/
abbrev ServerConfig := Config ℕ Kernel ServerThread

/-- A process before its first server. -/
def initially : ServerConfig := ⟨⟨fun _ ↦ none, []⟩, fun _ ↦ ⟨.idle, 0, ⟨none, none, none⟩⟩⟩

/-- The runs of a process. -/
abbrev ServerRun := Run serverMachine.program anyStep initially

/-! ### Who has which descriptor -/

/-- The epoll instance that a thread has. -/
def ServerThread.epoll (thread : ServerThread) : Option ℕ :=
  if thread.stage = .idle then none else thread.server.epollfd

/-- The stages at which a socket is in `listen4fd` and open. -/
def ServerStage.listens : ServerStage → Bool
  | .opened4 => true
  | .bound4 => true
  | .opened6 => true
  | .bound6 => true
  | .added4 => true
  | .running => true
  | _ => false

/-- The stages behind the second call of `socket`. -/
def ServerStage.second : ServerStage → Bool
  | .opened6 => true
  | .bound6 => true
  | .added4 => true
  | .running => true
  | _ => false

/-- The socket that a thread has. -/
def ServerThread.listen (thread : ServerThread) : Option ℕ :=
  if thread.stage.listens then thread.server.listen4fd else none

/-- The socket that a call has overwritten. -/
def ServerEvent.loses : ServerEvent → Option ℕ
  | .opened6 before _ => before
  | _ => none

/-- The sockets that were overwritten. -/
def lost (history : ServerHistory) : List ℕ := history.filterMap fun entry ↦ entry.2.loses

/-- The descriptors in the hands of the threads, the epoll instances and the sockets, and the lost
sockets, each in its own hands. -/
def holding (history : ServerHistory) (threads : ℕ → ServerThread) :
    (ℕ × Bool) ⊕ ℕ → Option ℕ
  | .inl (i, true) => (threads i).epoll
  | .inl (i, false) => (threads i).listen
  | .inr fd => if fd ∈ lost history then some fd else none

/-! ### The system calls -/

section Calls

variable {kernel kernel' : Kernel} {descriptor : Descriptor} {fd : Option ℕ} {other port : ℕ}
  {granted : Bool}

/-- A descriptor that was returned was free, and is open. -/
theorem opened_allocate {number : ℕ}
    (hallocate : kernel.allocate (some number) descriptor = some kernel') :
    number ∉ kernel.opened ∧ kernel'.opened = insert number kernel.opened ∧
      kernel'.descriptors number = some descriptor ∧
      (∀ other ≠ number, kernel'.descriptors other = kernel.descriptors other) ∧
      kernel'.watched = kernel.watched := by
  simp only [Kernel.allocate] at hallocate
  split_ifs at hallocate with hfree
  obtain rfl := Option.some.inj hallocate
  refine ⟨not_not.mpr hfree, ?_, Function.update_self _ _ _,
    fun other hother ↦ Function.update_of_ne hother _ _, rfl⟩
  ext other
  rcases eq_or_ne other number with rfl | hother
  · simp [Kernel.opened]
  · simp [Kernel.opened, hother]

theorem allocate_none (hallocate : kernel.allocate none descriptor = some kernel') :
    kernel' = kernel :=
  (Option.some.inj hallocate).symm

/-- `bind` changes the socket that it is called for, and that one stays a socket. -/
theorem bind_cases (kernel : Kernel) (fd : Option ℕ) (port : ℕ) (granted : Bool) :
    kernel.bind fd port granted = kernel ∨
      ∃ number, fd = some number ∧ kernel.descriptors number = some (.datagram none) ∧
        kernel.bind fd port granted = { kernel with
          descriptors :=
            Function.update kernel.descriptors number (some (.datagram (some port))) } := by
  cases fd with
  | none => exact Or.inl rfl
  | some number =>
    by_cases hgranted : granted ∧ kernel.descriptors number = some (.datagram none)
    · exact Or.inr ⟨number, rfl, hgranted.2, if_pos hgranted⟩
    · exact Or.inl (if_neg hgranted)

/-- `epoll_ctl` adds the pair that it is called for, or nothing. -/
theorem epollCtlAdd_cases (kernel : Kernel) (epollfd fd : Option ℕ) (granted : Bool) :
    kernel.epollCtlAdd epollfd fd granted = kernel ∨
      ∃ first second, epollfd = some first ∧ fd = some second ∧
        kernel.epollCtlAdd epollfd fd granted =
          { kernel with watched := (first, second) :: kernel.watched } := by
  cases epollfd with
  | none => exact Or.inl rfl
  | some first =>
    cases fd with
    | none => exact Or.inl rfl
    | some second =>
      cases granted with
      | true => exact Or.inr ⟨first, second, rfl, rfl, rfl⟩
      | false => exact Or.inl rfl

theorem opened_close (kernel : Kernel) (number : ℕ) :
    (kernel.close (some number)).opened = kernel.opened \ {number} := by
  ext other
  rcases eq_or_ne other number with rfl | hother
  · simp [Kernel.close, Kernel.opened]
  · simp [Kernel.close, Kernel.opened, hother]

end Calls

/-! ### What one step does -/

section Steps

variable {kernel kernel' : Kernel} {thread thread' : ServerThread} {event : ServerEvent}

/-- The steps of a thread. -/
inductive ServerStep (kernel : Kernel) :
    ServerThread → ServerEvent → Kernel → ServerThread → Prop
  | created {port port' : ℕ} {server : McmchServer} {fd : Option ℕ} {kernel' : Kernel} :
      kernel.allocate fd .epoll = some kernel' →
      ServerStep kernel ⟨.idle, port, server⟩ (.created fd) kernel' ⟨.polled, port', none, none, fd⟩
  | opened4 {port : ℕ} {before listen6fd epollfd fd : Option ℕ} {kernel' : Kernel} :
      kernel.allocate fd (.datagram none) = some kernel' →
      ServerStep kernel ⟨.polled, port, before, listen6fd, epollfd⟩ (.opened4 fd) kernel'
        ⟨.opened4, port, fd, listen6fd, epollfd⟩
  | bound4 {port : ℕ} {server : McmchServer} (granted : Bool) :
      ServerStep kernel ⟨.opened4, port, server⟩ .bound4
        (kernel.bind server.listen4fd port granted) ⟨.bound4, port, server⟩
  | opened6 {port : ℕ} {before listen6fd epollfd fd : Option ℕ} {kernel' : Kernel} :
      kernel.allocate fd (.datagram none) = some kernel' →
      ServerStep kernel ⟨.bound4, port, before, listen6fd, epollfd⟩ (.opened6 before fd) kernel'
        ⟨.opened6, port, fd, listen6fd, epollfd⟩
  | bound6 {port : ℕ} {server : McmchServer} (granted : Bool) :
      ServerStep kernel ⟨.opened6, port, server⟩ .bound6
        (kernel.bind server.listen6fd port granted) ⟨.bound6, port, server⟩
  | added4 {port : ℕ} {server : McmchServer} (granted : Bool) :
      ServerStep kernel ⟨.bound6, port, server⟩ .added4
        (kernel.epollCtlAdd server.epollfd server.listen4fd granted) ⟨.added4, port, server⟩
  | added6 {port : ℕ} {server : McmchServer} (granted : Bool) :
      ServerStep kernel ⟨.added4, port, server⟩ .added6
        (kernel.epollCtlAdd server.epollfd server.listen6fd granted) ⟨.running, port, server⟩
  | closed4 {port : ℕ} {server : McmchServer} :
      ServerStep kernel ⟨.running, port, server⟩ .closed4 (kernel.close server.listen4fd)
        ⟨.closed4, port, server⟩
  | closed6 {port : ℕ} {server : McmchServer} :
      ServerStep kernel ⟨.closed4, port, server⟩ .closed6 (kernel.close server.listen6fd)
        ⟨.closed6, port, server⟩
  | closed {port : ℕ} {server : McmchServer} :
      ServerStep kernel ⟨.closed6, port, server⟩ .closed (kernel.close server.epollfd)
        ⟨.idle, port, server⟩

/-- `ServerStep` lists every step. -/
theorem serverStep_of_program
    (hprogram : serverMachine.program kernel thread event kernel' thread') :
    ServerStep kernel thread event kernel' thread' := by
  obtain ⟨command, hcommand⟩ := hprogram
  obtain ⟨stage, port, listen4fd, listen6fd, epollfd⟩ := thread
  cases command with
  | create port fd =>
    cases stage <;> simp only [serverMachine, mcmchServerCalls, reduceCtorEq,
      Option.map_eq_some_iff, Prod.mk.injEq] at hcommand
    obtain ⟨kernel', hallocate, rfl, rfl, rfl⟩ := hcommand
    exact .created hallocate
  | opens fd =>
    cases stage <;> simp only [serverMachine, mcmchServerCalls, reduceCtorEq,
      Option.map_eq_some_iff, Prod.mk.injEq] at hcommand
    case polled =>
      obtain ⟨kernel', hallocate, rfl, rfl, rfl⟩ := hcommand
      exact .opened4 hallocate
    case bound4 =>
      obtain ⟨kernel', hallocate, rfl, rfl, rfl⟩ := hcommand
      exact .opened6 hallocate
  | call granted =>
    cases stage <;> simp only [serverMachine, mcmchServerCalls, reduceCtorEq, Option.some.injEq,
      Prod.mk.injEq] at hcommand
    all_goals
      obtain ⟨rfl, rfl, rfl⟩ := hcommand
      constructor
  | close =>
    cases stage <;> simp only [serverMachine, mcmchServerCalls, reduceCtorEq, Option.some.injEq,
      Prod.mk.injEq] at hcommand
    all_goals
      obtain ⟨rfl, rfl, rfl⟩ := hcommand
      constructor

end Steps

/-! ### Whose hands change -/

section Hands

variable {history : ServerHistory} {threads : ℕ → ServerThread} {thread' : ServerThread}
  {event : ServerEvent} {i fd : ℕ}

theorem lost_concat (history : ServerHistory) (i : ℕ) (event : ServerEvent) :
    lost (history ++ [(i, event)]) = lost history ++ event.loses.toList := by
  cases hloses : event.loses <;> simp [lost, List.filterMap_append, hloses]

theorem holding_concat_of_none (hloses : event.loses = none) :
    holding (history ++ [(i, event)]) threads = holding history threads := by
  funext holder
  rcases holder with ⟨j, _ | _⟩ | other
  · rfl
  · rfl
  · simp [holding, lost_concat, hloses]

theorem holding_concat_of_some (hloses : event.loses = some fd) :
    holding (history ++ [(i, event)]) threads =
      Function.update (holding history threads) (.inr fd) (some fd) := by
  funext holder
  rcases holder with ⟨j, _ | _⟩ | other
  · rfl
  · rfl
  · rcases eq_or_ne other fd with rfl | hother
    · simp [holding, lost_concat, hloses]
    · rw [Function.update_of_ne (by simpa using hother)]
      simp [holding, lost_concat, hloses, hother]

/-- A thread takes up or lays down its socket. -/
theorem holding_update_listen (hepoll : thread'.epoll = (threads i).epoll) :
    holding history (Function.update threads i thread') =
      Function.update (holding history threads) (.inl (i, false)) thread'.listen := by
  funext holder
  rcases holder with ⟨j, _ | _⟩ | other
  · rcases eq_or_ne j i with rfl | hj
    · simp [holding]
    · simp [holding, hj]
  · rcases eq_or_ne j i with rfl | hj
    · simp [holding, hepoll]
    · simp [holding, hj]
  · simp [holding]

/-- A thread takes up or lays down its epoll instance. -/
theorem holding_update_epoll (hlisten : thread'.listen = (threads i).listen) :
    holding history (Function.update threads i thread') =
      Function.update (holding history threads) (.inl (i, true)) thread'.epoll := by
  funext holder
  rcases holder with ⟨j, _ | _⟩ | other
  · rcases eq_or_ne j i with rfl | hj
    · simp [holding, hlisten]
    · simp [holding, hj]
  · rcases eq_or_ne j i with rfl | hj
    · simp [holding]
    · simp [holding, hj]
  · simp [holding]

/-- A thread keeps what it has. -/
theorem holding_update_same (hepoll : thread'.epoll = (threads i).epoll)
    (hlisten : thread'.listen = (threads i).listen) :
    holding history (Function.update threads i thread') = holding history threads := by
  rw [holding_update_listen hepoll, hlisten]
  exact Function.update_eq_self _ _

end Hands

/-! ### The ledger -/

/-- The descriptors of a thread are open on what they should be: the epoll instance, and a socket,
the second one without a port. The third one is `-1`. -/
structure Sound (kernel : Kernel) (thread : ServerThread) : Prop where
  epoll : ∀ fd, thread.epoll = some fd → kernel.descriptors fd = some .epoll
  listen : ∀ fd, thread.listen = some fd → ∃ port, kernel.descriptors fd = some (.datagram port) ∧
    (thread.stage.second = true → port = none)
  listen6fd : thread.server.listen6fd = none

/-- A pair is the epoll instance of a server and its second socket. -/
def ServerThread.Watches (thread : ServerThread) (pair : ℕ × ℕ) : Prop :=
  thread.epoll = some pair.1 ∧ thread.listen = some pair.2 ∧ thread.stage.second = true

/-- What holds between two system calls: every open descriptor is in one hand, no socket was lost
twice, the threads are sound, and an epoll instance watches the second socket of its server only. -/
structure Ledger (history : ServerHistory) (config : ServerConfig) : Prop where
  owned : Exclusive (holding history config.threads) config.shared.opened
  nodup : (lost history).Nodup
  sound : ∀ i, Sound config.shared (config.threads i)
  watched : ∀ pair ∈ config.shared.watched, ∃ i, (config.threads i).Watches pair

section Ledger

variable {history : ServerHistory} {config : ServerConfig} {kernel kernel' : Kernel}
  {thread thread' : ServerThread} {event : ServerEvent} {i fd : ℕ}

/-- A socket in the hands of a thread is not lost. -/
theorem Ledger.notMem_lost (h : Ledger history config)
    (hlisten : (config.threads i).listen = some fd) : fd ∉ lost history := by
  intro hlost
  have hfirst : holding history config.threads (.inl (i, false)) = some fd := hlisten
  have hsecond : holding history config.threads (.inr fd) = some fd := if_pos hlost
  exact absurd (h.owned.injective hfirst hsecond) (by simp)

/-- Empty hands take up what a call returned, if it did not fail. -/
theorem owned_allocate {Holder : Type*} [DecidableEq Holder] {holding : Holder → Option ℕ}
    {holder : Holder} {descriptor : Descriptor} {number : Option ℕ}
    (howned : Exclusive holding kernel.opened) (hempty : holding holder = none)
    (hallocate : kernel.allocate number descriptor = some kernel') :
    Exclusive (Function.update holding holder number) kernel'.opened := by
  cases number with
  | none =>
    rw [allocate_none hallocate, ← hempty, Function.update_eq_self]
    exact howned
  | some number =>
    obtain ⟨hfree, hopened, -⟩ := opened_allocate hallocate
    rw [hopened]
    exact howned.acquire hempty hfree

/-- A holder closes what it has, if it has something. -/
theorem owned_close {Holder : Type*} [DecidableEq Holder] {holding : Holder → Option ℕ}
    {holder : Holder} (howned : Exclusive holding kernel.opened) :
    Exclusive (Function.update holding holder none) (kernel.close (holding holder)).opened := by
  cases hholding : holding holder with
  | none =>
    have hsame : Function.update holding holder none = holding := by
      rw [← hholding, Function.update_eq_self]
    rw [hsame]
    exact howned
  | some number =>
    rw [opened_close]
    exact howned.release hholding

/-- A socket without a port stays open when it gets one. -/
theorem opened_bind (kernel : Kernel) (number : Option ℕ) (port : ℕ) (granted : Bool) :
    (kernel.bind number port granted).opened = kernel.opened := by
  rcases bind_cases kernel number port granted with hsame | ⟨fd, -, hsocket, hbind⟩
  · rw [hsame]
  · rw [hbind]
    ext other
    rcases eq_or_ne other fd with rfl | hother
    · simp [Kernel.opened, hsocket]
    · simp [Kernel.opened, hother]

theorem opened_epollCtlAdd (kernel : Kernel) (epollfd number : Option ℕ) (granted : Bool) :
    (kernel.epollCtlAdd epollfd number granted).opened = kernel.opened := by
  rcases epollCtlAdd_cases kernel epollfd number granted with hsame | ⟨first, second, -, -, hadd⟩
  · rw [hsame]
  · rw [hadd]
    rfl

/-- Every step leaves each open descriptor in one hand. -/
theorem Ledger.owned_step (h : Ledger history config) (hthread : config.threads i = thread)
    (hstep : ServerStep config.shared thread event kernel' thread') :
    Exclusive (holding (history ++ [(i, event)]) (Function.update config.threads i thread'))
      kernel'.opened := by
  have howned := h.owned
  have hsix : thread.server.listen6fd = none := hthread ▸ (h.sound i).listen6fd
  -- What the thread had before the step.
  have hepoll : holding history config.threads (.inl (i, true)) = thread.epoll := by
    rw [← hthread]
    rfl
  have hlisten : holding history config.threads (.inl (i, false)) = thread.listen := by
    rw [← hthread]
    rfl
  cases hstep with
  | created hallocate =>
    rw [holding_concat_of_none rfl, holding_update_epoll (by rw [hthread]; rfl)]
    exact owned_allocate howned hepoll hallocate
  | opened4 hallocate =>
    rw [holding_concat_of_none rfl, holding_update_listen (by rw [hthread]; rfl)]
    exact owned_allocate howned hlisten hallocate
  | bound4 granted =>
    rw [holding_concat_of_none rfl, holding_update_same (by rw [hthread]; rfl)
      (by rw [hthread]; rfl), opened_bind]
    exact howned
  | @opened6 port before listen6fd epollfd number _ hallocate =>
    rw [holding_update_listen (by rw [hthread]; rfl)]
    cases before with
    | none =>
      rw [holding_concat_of_none rfl]
      exact owned_allocate howned hlisten hallocate
    | some first =>
      -- The first socket passes into its own hands, and then the thread takes up the second one.
      have hlost : holding history config.threads (.inr first) = none :=
        if_neg (h.notMem_lost (by rw [hthread]; rfl))
      have hpassed := howned.pass hlisten hlost
      have hempty : Function.update (Function.update (holding history config.threads)
          (.inl (i, false)) none) (.inr first) (some first) (.inl (i, false)) = none := by simp
      have htaken := owned_allocate hpassed hempty hallocate
      rw [Function.update_comm (by simp), Function.update_idem] at htaken
      rw [holding_concat_of_some rfl]
      rw [Function.update_comm (by simp)]
      exact htaken
  | bound6 granted =>
    rw [holding_concat_of_none rfl, holding_update_same (by rw [hthread]; rfl)
      (by rw [hthread]; rfl), opened_bind]
    exact howned
  | added4 granted =>
    rw [holding_concat_of_none rfl, holding_update_same (by rw [hthread]; rfl)
      (by rw [hthread]; rfl), opened_epollCtlAdd]
    exact howned
  | added6 granted =>
    rw [holding_concat_of_none rfl, holding_update_same (by rw [hthread]; rfl)
      (by rw [hthread]; rfl), opened_epollCtlAdd]
    exact howned
  | closed4 =>
    rw [holding_concat_of_none rfl, holding_update_listen (by rw [hthread]; rfl)]
    have hclosed := @owned_close config.shared _ _ _ (.inl (i, false)) howned
    rw [hlisten] at hclosed
    exact hclosed
  | closed6 =>
    rw [holding_concat_of_none rfl, holding_update_same (by rw [hthread]; rfl)
      (by rw [hthread]; rfl), hsix]
    exact howned
  | closed =>
    rw [holding_concat_of_none rfl, holding_update_epoll (by rw [hthread]; rfl)]
    have hclosed := @owned_close config.shared _ _ _ (.inl (i, true)) howned
    rw [hepoll] at hclosed
    exact hclosed

/-- The other threads have other descriptors. -/
theorem Ledger.ne_of_holds (h : Ledger history config) {j : ℕ} (hj : j ≠ i) {number : ℕ}
    (hother : (config.threads j).epoll = some number ∨ (config.threads j).listen = some number) :
    (config.threads i).epoll ≠ some number ∧ (config.threads i).listen ≠ some number := by
  have hholder : ∃ role, holding history config.threads (.inl (j, role)) = some number := by
    rcases hother with hepoll | hlisten
    · exact ⟨true, hepoll⟩
    · exact ⟨false, hlisten⟩
  obtain ⟨role, hrole⟩ := hholder
  constructor
  · intro hepoll
    have hown : holding history config.threads (.inl (i, true)) = some number := hepoll
    have hsame := h.owned.injective hrole hown
    simp only [Sum.inl.injEq, Prod.mk.injEq] at hsame
    exact hj hsame.1
  · intro hlisten
    have hown : holding history config.threads (.inl (i, false)) = some number := hlisten
    have hsame := h.owned.injective hrole hown
    simp only [Sum.inl.injEq, Prod.mk.injEq] at hsame
    exact hj hsame.1

theorem Sound.congr (h : Sound kernel thread)
    (hsame : ∀ number, thread.epoll = some number ∨ thread.listen = some number →
      kernel'.descriptors number = kernel.descriptors number) : Sound kernel' thread where
  epoll number hnumber := (hsame number (Or.inl hnumber)).trans (h.epoll number hnumber)
  listen number hnumber := by
    rw [hsame number (Or.inr hnumber)]
    exact h.listen number hnumber
  listen6fd := h.listen6fd

theorem descriptors_epollCtlAdd (kernel : Kernel) (epollfd number : Option ℕ) (granted : Bool) :
    (kernel.epollCtlAdd epollfd number granted).descriptors = kernel.descriptors := by
  rcases epollCtlAdd_cases kernel epollfd number granted with hsame | ⟨_, _, -, -, hadd⟩
  · rw [hsame]
  · rw [hadd]

/-- A call that returns a descriptor changes no other one. -/
theorem descriptors_allocate {descriptor : Descriptor} {result : Option ℕ} {number : ℕ}
    (hallocate : kernel.allocate result descriptor = some kernel')
    (hopen : number ∈ kernel.opened) : kernel'.descriptors number = kernel.descriptors number := by
  cases result with
  | none => rw [allocate_none hallocate]
  | some fd =>
    obtain ⟨hfree, -, -, hother, -⟩ := opened_allocate hallocate
    exact hother number (fun hsame ↦ hfree (hsame ▸ hopen))

/-- A call that closes a descriptor changes no other one. -/
theorem descriptors_close {result : Option ℕ} {number : ℕ} (hne : result ≠ some number) :
    (kernel.close result).descriptors number = kernel.descriptors number := by
  cases result with
  | none => rfl
  | some fd => exact Function.update_of_ne (fun hsame ↦ hne (congrArg some hsame.symm)) _ _

/-- A step changes nothing but a descriptor that was free or that its thread has. -/
theorem ServerStep.descriptors (hstep : ServerStep kernel thread event kernel' thread')
    (hsix : thread.server.listen6fd = none) {number : ℕ} (hopen : number ∈ kernel.opened)
    (hepoll : thread.epoll ≠ some number) (hlisten : thread.listen ≠ some number) :
    kernel'.descriptors number = kernel.descriptors number := by
  cases hstep with
  | created hallocate => exact descriptors_allocate hallocate hopen
  | opened4 hallocate => exact descriptors_allocate hallocate hopen
  | opened6 hallocate => exact descriptors_allocate hallocate hopen
  | @bound4 port server granted =>
    rcases bind_cases kernel server.listen4fd port granted with hsame | ⟨fd, hfd, -, hbind⟩
    · rw [hsame]
    · rw [hbind]
      exact Function.update_of_ne (fun hsame ↦ hlisten (hfd.trans (by rw [hsame]))) _ _
  | bound6 granted =>
    rw [show _ = none from hsix]
    rfl
  | added4 granted => rw [descriptors_epollCtlAdd]
  | added6 granted => rw [descriptors_epollCtlAdd]
  | closed4 => exact descriptors_close hlisten
  | closed6 =>
    rw [show _ = none from hsix]
    rfl
  | closed => exact descriptors_close hepoll

/-- The epoll instance of a thread is not its socket. -/
theorem Sound.ne (h : Sound kernel thread) {number : ℕ} (hepoll : thread.epoll = some number) :
    thread.listen ≠ some number := by
  intro hlisten
  obtain ⟨port, hsocket, -⟩ := h.listen number hlisten
  simp [h.epoll number hepoll] at hsocket

/-- The descriptors of a thread are open. -/
theorem Sound.mem_opened (h : Sound kernel thread) {number : ℕ}
    (hholds : thread.epoll = some number ∨ thread.listen = some number) :
    number ∈ kernel.opened := by
  rcases hholds with hepoll | hlisten
  · simp [Kernel.opened, h.epoll number hepoll]
  · obtain ⟨port, hsocket, -⟩ := h.listen number hlisten
    simp [Kernel.opened, hsocket]

/-- A step leaves its thread sound. -/
theorem Sound.step (h : Sound kernel thread)
    (hstep : ServerStep kernel thread event kernel' thread') : Sound kernel' thread' := by
  have hsix := h.listen6fd
  cases hstep with
  | created hallocate =>
    refine ⟨fun number hnumber ↦ ?_, by simp [ServerThread.listen, ServerStage.listens], rfl⟩
    obtain rfl : _ = some number := hnumber
    exact (opened_allocate hallocate).2.2.1
  | opened4 hallocate =>
    refine ⟨fun number hnumber ↦ ?_, fun number hnumber ↦ ?_, hsix⟩
    · rw [descriptors_allocate hallocate (h.mem_opened (Or.inl hnumber))]
      exact h.epoll number hnumber
    · obtain rfl : _ = some number := hnumber
      exact ⟨none, (opened_allocate hallocate).2.2.1, fun _ ↦ rfl⟩
  | @bound4 port server granted =>
    rcases bind_cases kernel server.listen4fd port granted with hsame | ⟨fd, hfd, -, hbind⟩
    · rw [hsame]
      exact ⟨h.epoll, fun number hnumber ↦ (h.listen number hnumber).imp fun _ hport ↦
        ⟨hport.1, by simp [ServerStage.second]⟩, hsix⟩
    · rw [hbind]
      refine ⟨fun number hnumber ↦ ?_, fun number hnumber ↦ ?_, hsix⟩
      · have hother : number ≠ fd := fun hsame ↦ h.ne hnumber (hfd.trans (by rw [hsame]))
        exact (Function.update_of_ne hother _ _).trans (h.epoll number hnumber)
      · obtain rfl : fd = number := Option.some.inj (hfd.symm.trans hnumber)
        exact ⟨some port, Function.update_self _ _ _, by simp [ServerStage.second]⟩
  | opened6 hallocate =>
    refine ⟨fun number hnumber ↦ ?_, fun number hnumber ↦ ?_, hsix⟩
    · rw [descriptors_allocate hallocate (h.mem_opened (Or.inl hnumber))]
      exact h.epoll number hnumber
    · obtain rfl : _ = some number := hnumber
      exact ⟨none, (opened_allocate hallocate).2.2.1, fun _ ↦ rfl⟩
  | bound6 granted =>
    rw [show _ = none from hsix]
    exact ⟨h.epoll, h.listen, hsix⟩
  | added4 granted =>
    exact ⟨by rw [descriptors_epollCtlAdd]; exact h.epoll,
      by rw [descriptors_epollCtlAdd]; exact h.listen, hsix⟩
  | added6 granted =>
    exact ⟨by rw [descriptors_epollCtlAdd]; exact h.epoll,
      by rw [descriptors_epollCtlAdd]; exact h.listen, hsix⟩
  | closed4 =>
    refine ⟨fun number hnumber ↦ ?_, by simp [ServerThread.listen, ServerStage.listens], hsix⟩
    exact (descriptors_close (h.ne hnumber)).trans (h.epoll number hnumber)
  | closed6 =>
    rw [show _ = none from hsix]
    exact ⟨h.epoll, by simp [ServerThread.listen, ServerStage.listens], hsix⟩
  | closed =>
    exact ⟨by simp [ServerThread.epoll], by simp [ServerThread.listen, ServerStage.listens], hsix⟩

theorem mem_watched_close {result : Option ℕ} {pair : ℕ × ℕ}
    (hpair : pair ∈ (kernel.close result).watched) :
    pair ∈ kernel.watched ∧ result ≠ some pair.2 := by
  cases result with
  | none => exact ⟨hpair, by simp⟩
  | some fd =>
    simp only [Kernel.close, List.mem_filter, decide_eq_true_eq] at hpair
    exact ⟨hpair.1, fun hsame ↦ hpair.2.2 (Option.some.inj hsame).symm⟩

theorem watched_allocate {descriptor : Descriptor} {result : Option ℕ}
    (hallocate : kernel.allocate result descriptor = some kernel') :
    kernel'.watched = kernel.watched := by
  cases result with
  | none => rw [allocate_none hallocate]
  | some fd => exact (opened_allocate hallocate).2.2.2.2

theorem watched_bind (kernel : Kernel) (number : Option ℕ) (port : ℕ) (granted : Bool) :
    (kernel.bind number port granted).watched = kernel.watched := by
  rcases bind_cases kernel number port granted with hsame | ⟨fd, -, -, hbind⟩
  · rw [hsame]
  · rw [hbind]

/-- What is watched after a step: the pair that the step has added, or what was watched before,
which the thread still watches if it did. -/
theorem ServerStep.watched (hstep : ServerStep kernel thread event kernel' thread')
    (hsix : thread.server.listen6fd = none) {pair : ℕ × ℕ} (hpair : pair ∈ kernel'.watched) :
    thread'.Watches pair ∨
      (pair ∈ kernel.watched ∧ (thread.Watches pair → thread'.Watches pair)) := by
  -- Before the second call of `socket` and from the first call of `close` on, nothing is watched.
  have hbefore : pair ∈ kernel.watched → thread.stage.second = false → thread'.Watches pair ∨
      (pair ∈ kernel.watched ∧ (thread.Watches pair → thread'.Watches pair)) :=
    fun hmem hsecond ↦ Or.inr ⟨hmem, fun hwatches ↦ by simp [hwatches.2.2] at hsecond⟩
  cases hstep with
  | created hallocate => exact hbefore (watched_allocate hallocate ▸ hpair) rfl
  | opened4 hallocate => exact hbefore (watched_allocate hallocate ▸ hpair) rfl
  | opened6 hallocate => exact hbefore (watched_allocate hallocate ▸ hpair) rfl
  | bound4 granted =>
    rw [watched_bind] at hpair
    exact hbefore hpair rfl
  | bound6 granted =>
    rw [watched_bind] at hpair
    exact Or.inr ⟨hpair, id⟩
  | @added4 port server granted =>
    rcases epollCtlAdd_cases kernel server.epollfd server.listen4fd granted with
      hsame | ⟨first, second, hfirst, hsecond, hadd⟩
    · rw [hsame] at hpair
      exact Or.inr ⟨hpair, id⟩
    · rw [hadd] at hpair
      rcases List.mem_cons.mp hpair with rfl | hold
      · exact Or.inl ⟨hfirst, hsecond, rfl⟩
      · exact Or.inr ⟨hold, id⟩
  | @added6 port server granted =>
    have hnone : server.listen6fd = none := hsix
    rcases epollCtlAdd_cases kernel server.epollfd server.listen6fd granted with
      hsame | ⟨first, second, -, hsecond, -⟩
    · rw [hsame] at hpair
      exact Or.inr ⟨hpair, id⟩
    · simp [hnone] at hsecond
  | closed4 =>
    obtain ⟨hmem, hne⟩ := mem_watched_close hpair
    exact Or.inr ⟨hmem, fun hwatches ↦ absurd hwatches.2.1 hne⟩
  | closed6 => exact hbefore (mem_watched_close hpair).1 rfl
  | closed => exact hbefore (mem_watched_close hpair).1 rfl

/-- A step loses the first socket of its thread, or nothing. -/
theorem ServerStep.loses (hstep : ServerStep kernel thread event kernel' thread') :
    event.loses = none ∨ event.loses = thread.listen := by
  cases hstep with
  | opened6 => exact Or.inr rfl
  | _ => exact Or.inl rfl

/-- One system call keeps the ledger. -/
theorem Ledger.step (h : Ledger history config)
    (hstep : ServerStep config.shared (config.threads i) event kernel' thread') :
    Ledger (history ++ [(i, event)]) (config.advance i kernel' thread') where
  owned := h.owned_step rfl hstep
  nodup := by
    rw [lost_concat]
    rcases hstep.loses with hnone | hlisten
    · rw [hnone]
      simpa using h.nodup
    · rw [hlisten]
      cases hfirst : (config.threads i).listen with
      | none => simpa using h.nodup
      | some first => simpa using h.nodup.concat (h.notMem_lost hfirst)
  sound j := by
    rcases eq_or_ne j i with rfl | hj
    · rw [Config.advance_threads_self]
      exact (h.sound j).step hstep
    · rw [Config.advance_threads_of_ne config hj]
      refine (h.sound j).congr fun number hother ↦ ?_
      obtain ⟨hepoll, hlisten⟩ := h.ne_of_holds hj hother
      exact hstep.descriptors (h.sound i).listen6fd ((h.sound j).mem_opened hother) hepoll hlisten
  watched pair hpair := by
    rcases hstep.watched (h.sound i).listen6fd hpair with hwatches | ⟨hmem, hkeeps⟩
    · exact ⟨i, by simpa using hwatches⟩
    · obtain ⟨j, hwatches⟩ := h.watched pair hmem
      rcases eq_or_ne j i with rfl | hj
      · exact ⟨j, by simpa using hkeeps hwatches⟩
      · exact ⟨j, by simpa [hj] using hwatches⟩

/-- The ledger holds between all system calls of a run. -/
theorem ledger_of_run (hrun : ServerRun history config) : Ledger history config := by
  refine hrun.invariant Ledger ⟨?_, List.nodup_nil, fun i ↦ ⟨?_, ?_, rfl⟩, ?_⟩ ?_
  · have hnone : ∀ holder, holding [] initially.threads holder = none := by
      rintro (⟨j, _ | _⟩ | other)
      · rfl
      · rfl
      · simp [holding, lost]
    have hopened : initially.shared.opened = ∅ := by simp [Kernel.opened, initially]
    rw [hopened]
    exact Exclusive.of_none hnone
  · simp [initially, ServerThread.epoll]
  · simp [initially, ServerThread.listen, ServerStage.listens]
  · simp [initially]
  · intro history config i event kernel' thread' _ hledger _ hprogram
    exact hledger.step (serverStep_of_program hprogram)

end Ledger

/-! ### What the servers leave behind -/

section Servers

variable {history : ServerHistory} {config : ServerConfig}

/-- In every run the open descriptors are those of the servers that are being created, in use or
being closed, an epoll instance and at most one socket each, and the lost sockets. No descriptor is
in two hands. No socket is lost twice, and no server has a lost one, so none is ever closed: every
creation that got a first socket leaves one open. -/
theorem serverSockets_ledger (hrun : ServerRun history config) :
    (∀ fd, config.shared.descriptors fd ≠ none ↔
      (∃ i, (config.threads i).epoll = some fd ∨ (config.threads i).listen = some fd) ∨
        fd ∈ lost history) ∧
    (∀ fd i j, ((config.threads i).epoll = some fd → (config.threads j).epoll = some fd → i = j) ∧
      ((config.threads i).listen = some fd → (config.threads j).listen = some fd → i = j) ∧
      ((config.threads i).epoll = some fd → (config.threads j).listen ≠ some fd)) ∧
    (lost history).Nodup ∧
    (∀ fd ∈ lost history, ∀ i,
      (config.threads i).epoll ≠ some fd ∧ (config.threads i).listen ≠ some fd) ∧
    ((∀ i, (config.threads i).stage = .idle) →
      ∀ fd, config.shared.descriptors fd ≠ none ↔ fd ∈ lost history) := by
  have hledger := ledger_of_run hrun
  have hopened : ∀ fd, config.shared.descriptors fd ≠ none ↔
      (∃ i, (config.threads i).epoll = some fd ∨ (config.threads i).listen = some fd) ∨
        fd ∈ lost history := by
    intro fd
    refine (hledger.owned.mem_iff fd).trans ⟨?_, ?_⟩
    · rintro ⟨⟨i, _ | _⟩ | other, hholds⟩
      · exact Or.inl ⟨i, Or.inr hholds⟩
      · exact Or.inl ⟨i, Or.inl hholds⟩
      · simp only [holding, Option.ite_none_right_eq_some, Option.some.injEq] at hholds
        exact Or.inr (hholds.2 ▸ hholds.1)
    · rintro (⟨i, hepoll | hlisten⟩ | hlost)
      · exact ⟨.inl (i, true), hepoll⟩
      · exact ⟨.inl (i, false), hlisten⟩
      · exact ⟨.inr fd, if_pos hlost⟩
  have hhands : ∀ {fd i j role role'}, holding history config.threads (.inl (i, role)) = some fd →
      holding history config.threads (.inl (j, role')) = some fd → (i, role) = (j, role') :=
    fun hown hother ↦ Sum.inl.inj (hledger.owned.injective hown hother)
  refine ⟨hopened, fun fd i j ↦ ⟨fun hepoll hepoll' ↦ ?_, fun hlisten hlisten' ↦ ?_,
    fun hepoll hlisten ↦ ?_⟩, hledger.nodup,
    fun fd hlost i ↦ ⟨fun hepoll ↦ ?_, fun hlisten ↦ ?_⟩, fun hidle fd ↦ ?_⟩
  · exact congrArg Prod.fst (@hhands fd i j true true hepoll hepoll')
  · exact congrArg Prod.fst (@hhands fd i j false false hlisten hlisten')
  · exact absurd (congrArg Prod.snd (@hhands fd i j true false hepoll hlisten)) (by simp)
  · have hown : holding history config.threads (.inl (i, true)) = some fd := hepoll
    have hother : holding history config.threads (.inr fd) = some fd := if_pos hlost
    exact absurd (hledger.owned.injective hown hother) (by simp)
  · exact hledger.notMem_lost hlisten hlost
  · rw [hopened fd]
    simp [ServerThread.epoll, ServerThread.listen, ServerStage.listens, hidle]

/-- A server that is created for port 5 and closed, after which its first socket is open. -/
theorem serverSockets_ledger_one :
    ∃ history config, ServerRun history config ∧ (config.threads 0).stage = .idle ∧
      lost history = [4] ∧ config.shared.descriptors 4 = some (.datagram (some 5)) ∧
      ∀ i, (config.threads i).epoll ≠ some 4 ∧ (config.threads i).listen ≠ some 4 := by
  obtain ⟨history, config, hrun, hview⟩ := exists_run_of_play_view serverMachine anyStep initially
    [(0, .create 5 (some 3)), (0, .opens (some 4)), (0, .call true), (0, .opens (some 6)),
      (0, .call true), (0, .call true), (0, .call true), (0, .close), (0, .close), (0, .close)]
    (fun history config ↦ ((config.threads 0).stage, lost history, config.shared.descriptors 4))
    (.idle, [4], some (.datagram (some 5))) (by decide)
  obtain ⟨hidle, hview⟩ := Prod.mk.inj hview
  obtain ⟨hlost, hsocket⟩ := Prod.mk.inj hview
  exact ⟨history, config, hrun, hidle, hlost, hsocket,
    (serverSockets_ledger hrun).2.2.2.1 4 (by simp [hlost])⟩

/-- In every run an epoll instance watches open sockets without a port only, and each pair is the
epoll instance and the second socket of one server. So no datagram that is sent to the port of a
server makes an epoll instance ready. -/
theorem serverSockets_deaf (hrun : ServerRun history config) (epollfd fd : ℕ)
    (hwatched : (epollfd, fd) ∈ config.shared.watched) :
    config.shared.descriptors epollfd = some .epoll ∧
      config.shared.descriptors fd = some (.datagram none) ∧
      ∃ i, (config.threads i).epoll = some epollfd ∧ (config.threads i).listen = some fd ∧
        (config.threads i).stage.second = true := by
  have hledger := ledger_of_run hrun
  obtain ⟨i, hepoll, hlisten, hsecond⟩ := hledger.watched _ hwatched
  obtain ⟨port, hsocket, hport⟩ := (hledger.sound i).listen fd hlisten
  refine ⟨(hledger.sound i).epoll epollfd hepoll, ?_, i, hepoll, hlisten, hsecond⟩
  rw [hsocket, hport hsecond]

/-- A server in use, whose port is that of a socket which is not watched. -/
theorem serverSockets_deaf_one :
    ∃ history config, ServerRun history config ∧ config.shared.watched = [(3, 6)] ∧
      config.shared.descriptors 4 = some (.datagram (some 5)) ∧
      config.shared.descriptors 6 = some (.datagram none) := by
  obtain ⟨history, config, hrun, hview⟩ := exists_run_of_play_view serverMachine anyStep initially
    [(0, .create 5 (some 3)), (0, .opens (some 4)), (0, .call true), (0, .opens (some 6)),
      (0, .call true), (0, .call true), (0, .call true)]
    (fun _ config ↦ (config.shared.watched, config.shared.descriptors 4))
    ([(3, 6)], some (.datagram (some 5))) (by decide)
  obtain ⟨hwatched, hsocket⟩ := Prod.mk.inj hview
  exact ⟨history, config, hrun, hwatched, hsocket,
    (serverSockets_deaf hrun 3 6 (by simp [hwatched])).2.1⟩

end Servers

end Mcmp.Server.Sockets
