import OperatingSystem.Links
import OperatingSystem.Transition

/-! # Wake-up queues

A context collects tasks in a list of its own and wakes them later, one after the
other. The list runs through a link in the tasks, so a task is in one list at a
time: a context claims it with an atomic exchange, and who finds it claimed leaves
the wake-up to the other context. The contexts run interleaved, one access to
shared memory at a time.
-/

namespace OperatingSystem.Kernel

/-- `struct wake_q_head`; `lastp` is `none` while it points to `first`. -/
structure WakeQHead (T : Type*) where
  first : Link T
  lastp : Option T
  deriving DecidableEq

inductive WakeQCall where
  | wakeQAdd
  | wakeQAddSafe
  deriving DecidableEq, Repr

inductive WakeQPc (T : Type*) where
  | idle
  /-- before `*head->lastp = node` -/
  | store (task : T) (call : WakeQCall)
  /-- before `head->lastp = &node->next` -/
  | advance (task : T) (call : WakeQCall)
  /-- before `get_task_struct` -/
  | getTask (task : T)
  /-- before the `put_task_struct` of `wake_q_add_safe` -/
  | putTask (task : T)
  /-- at the test of the loop in `wake_up_q` -/
  | loop (node : Link T)
  /-- before `task->wake_q.next = NULL` -/
  | unlink (task : T) (node : Link T)
  /-- before `wake_up_process` -/
  | wake (task : T) (node : Link T)
  /-- before the `put_task_struct` of `wake_up_q` -/
  | drop (task : T) (node : Link T)
  | done
  deriving DecidableEq

/-- What the owner of a head tells about a task: it queued the wake-up, found one queued already,
or woke the task. -/
inductive WakeEvent (H T : Type*) where
  | queued (h : H) (task : T)
  | refused (h : H) (task : T)
  | woken (h : H) (task : T)
  deriving DecidableEq, Repr

/-- The memory that wake-up queues share, with the program counters. `refs` counts the references
to a task that the rest of the kernel holds; a call keeps one of them back while it runs. -/
structure WakeQ (H T : Type*) where
  next : T → Link T
  usage : T → ℕ
  head : H → WakeQHead T
  pc : H → WakeQPc T
  refs : T → ℕ

/-- What happens next: a context enters a function, goes on with the one it is in or initializes
its head again, or somebody else takes or drops a reference. -/
inductive WakeQAction (H T : Type*) where
  | add (h : H) (task : T) (call : WakeQCall)
  | wakeUpQ (h : H)
  | goOn (h : H)
  | wakeQInit (h : H)
  | getTaskStruct (task : T)
  | putTaskStruct (task : T)
  deriving DecidableEq, Repr

namespace WakeQ

variable {H T : Type*} [DecidableEq H] [DecidableEq T]

def setNext (m : WakeQ H T) (task : T) (l : Link T) : WakeQ H T :=
  { m with next := Function.update m.next task l }

def setHead (m : WakeQ H T) (h : H) (head : WakeQHead T) : WakeQ H T :=
  { m with head := Function.update m.head h head }

def setPc (m : WakeQ H T) (h : H) (pc : WakeQPc T) : WakeQ H T :=
  { m with pc := Function.update m.pc h pc }

def setRefs (m : WakeQ H T) (task : T) (usage refs : ℕ) : WakeQ H T :=
  { m with
    usage := Function.update m.usage task usage
    refs := Function.update m.refs task refs }

def storeLast (m : WakeQ H T) (h : H) (task : T) : WakeQ H T :=
  match (m.head h).lastp with
  | none => m.setHead h { m.head h with first := .node task }
  | some last => m.setNext last (.node task)

/-- The exchange of `__wake_q_add`, with the reference that the caller holds. -/
def wakeQAdd (m : WakeQ H T) (h : H) (task : T) (call : WakeQCall) :
    WakeQ H T × List (WakeEvent H T) :=
  if m.next task = .null then
    (((m.setNext task .tail).setRefs task (m.usage task) (m.refs task - 1)).setPc h
      (.store task call), [.queued h task])
  else
    match call with
    | .wakeQAdd => (m, [.refused h task])
    | .wakeQAddSafe =>
      ((m.setRefs task (m.usage task) (m.refs task - 1)).setPc h (.putTask task),
        [.refused h task])

/-- The next statement of a context inside one of the functions. A null link is no task. -/
def goOn (m : WakeQ H T) (h : H) : Option (WakeQ H T × List (WakeEvent H T)) :=
  match m.pc h with
  | .idle => none
  | .store task call => some ((m.storeLast h task).setPc h (.advance task call), [])
  | .advance task call =>
    let m := m.setHead h { m.head h with lastp := some task }
    match call with
    | .wakeQAdd => some (m.setPc h (.getTask task), [])
    | .wakeQAddSafe => some (m.setPc h .idle, [])
  | .getTask task =>
    some ((m.setRefs task (m.usage task + 1) (m.refs task + 1)).setPc h .idle, [])
  | .putTask task => some ((m.setRefs task (m.usage task - 1) (m.refs task)).setPc h .idle, [])
  | .loop .tail => some (m.setPc h .done, [])
  | .loop .null => none
  | .loop (.node task) => some (m.setPc h (.unlink task (m.next task)), [])
  | .unlink task node => some ((m.setNext task .null).setPc h (.wake task node), [])
  | .wake task node => some (m.setPc h (.drop task node), [.woken h task])
  | .drop task node =>
    some ((m.setRefs task (m.usage task - 1) (m.refs task)).setPc h (.loop node), [])
  | .done => none

/-- One step, where it is possible: the caller of an add holds a reference to the task, and a head
is initialized again after its tasks have been woken. -/
def act (m : WakeQ H T) : WakeQAction H T → Option (WakeQ H T × List (WakeEvent H T))
  | .add h task call =>
    if m.pc h = .idle ∧ 0 < m.refs task then some (m.wakeQAdd h task call) else none
  | .wakeUpQ h =>
    if m.pc h = .idle then some (m.setPc h (.loop (m.head h).first), []) else none
  | .goOn h => m.goOn h
  | .wakeQInit h =>
    if m.pc h = .done then some ((m.setHead h ⟨.tail, none⟩).setPc h .idle, []) else none
  | .getTaskStruct task =>
    if 0 < m.refs task then some (m.setRefs task (m.usage task + 1) (m.refs task + 1), []) else none
  | .putTaskStruct task =>
    if 0 < m.refs task then some (m.setRefs task (m.usage task - 1) (m.refs task - 1), []) else none

structure Fresh (m : WakeQ H T) : Prop where
  next : ∀ task, m.next task = .null
  usage : m.usage = m.refs
  head : ∀ h, m.head h = ⟨.tail, none⟩
  pc : ∀ h, m.pc h = .idle

end WakeQ

/-- The interleaved runs of the contexts, with what they told so far. -/
def wakeQ (H T : Type*) [DecidableEq H] [DecidableEq T] :
    System (WakeQ H T × List (WakeEvent H T)) where
  init s := s.1.Fresh ∧ s.2 = []
  step s s' := ∃ a m es, s.1.act a = some (m, es) ∧ s' = (m, s.2 ++ es)

namespace WakeQ

variable {H T : Type*} [DecidableEq H] [DecidableEq T] {s s' : WakeQ H T × List (WakeEvent H T)}

def run (s : WakeQ H T × List (WakeEvent H T)) :
    List (WakeQAction H T) → Option (WakeQ H T × List (WakeEvent H T))
  | [] => some s
  | a :: as => (s.1.act a).bind fun r => run (r.1, s.2 ++ r.2) as

theorem run_reachable {as : List (WakeQAction H T)} (h : (wakeQ H T).Reachable s)
    (hrun : run s as = some s') : (wakeQ H T).Reachable s' := by
  induction as generalizing s with
  | nil =>
    obtain rfl := Option.some.inj hrun
    exact h
  | cons a as ih =>
    obtain ⟨⟨m, es⟩, hact, hrest⟩ := Option.bind_eq_some_iff.mp hrun
    exact ih (h.tail ⟨a, m, es, hact, rfl⟩) hrest

def fresh (refs : T → ℕ) : WakeQ H T where
  next _ := .null
  usage := refs
  head _ := ⟨.tail, none⟩
  pc _ := .idle
  refs := refs

theorem fresh_reachable (refs : T → ℕ) : (wakeQ H T).Reachable (fresh refs, []) :=
  .init ⟨⟨fun _ => rfl, rfl, fun _ => rfl, fun _ => rfl⟩, rfl⟩

/-- Two contexts want to wake the same task; the second finds it queued before the first has
linked it. -/
def raced : List (WakeQAction Bool Unit) :=
  [.add false () .wakeQAdd, .add true () .wakeQAdd, .goOn false, .goOn false, .goOn false,
    .wakeUpQ false, .goOn false, .goOn false, .goOn false, .goOn false, .goOn false]

example : (run (fresh fun _ => 2, []) raced).map Prod.snd =
    some [.queued false (), .refused true (), .woken false ()] := by decide

end WakeQ

end OperatingSystem.Kernel
