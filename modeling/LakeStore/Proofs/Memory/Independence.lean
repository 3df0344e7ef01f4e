import LakeStore.Proofs.Memory.Client
import LakeStore.Proofs.Memory.Local
import Mathlib.Data.List.Basic
import Mathlib.Logic.Function.Basic

/-!
Independent work on a store in memory commutes. Several workers share the store, and the paths that
one of them uses are apart from those that the others use. However their calls are interleaved, each
call is answered the same, and the store holds the same in the end. The calls of two workers can
change places, and from this a run is put into the order of another one call by call.
-/

namespace LakeStore.MemoryClient

open Memory StorePath

/-- A call of a worker. The worker names a writer in its own way. -/
inductive Task (ω : Type) where
  | createFile (path : String) (ifExists : IfExists)
  | write (writer : ω) (data : ByteArray)
  | createDirectory (path : String)
  | delete (path : String)
  | deleteRecursive (path : String)

inductive Reply where
  | opened (result : Except ClientError Writer)
  | wrote (result : Except StreamError Writer)
  | answered (result : Except ClientError Bool)
  | noWriter

def writersOf (replies : List Reply) : List Writer :=
  replies.filterMap fun
    | .opened (.ok writer) => some writer
    | _ => none

theorem mem_writersOf_concat {replies : List Reply} {reply : Reply} {writer : Writer} :
    writer ∈ writersOf (replies ++ [reply]) ↔
      writer ∈ writersOf replies ∨ reply = .opened (.ok writer) := by
  unfold writersOf
  rw [List.filterMap_append, List.mem_append]
  apply or_congr_right
  cases reply with
  | opened result => cases result <;> simp [eq_comm]
  | wrote result => simp
  | answered result => simp
  | noWriter => simp

namespace Task

def path? {ω : Type} : Task ω → Option String
  | createFile path _ => some path
  | write .. => none
  | createDirectory path => some path
  | delete path => some path
  | deleteRecursive path => some path

def withWriter? (writers : List Writer) : Task Nat → Option (Task Writer)
  | createFile path ifExists => some (createFile path ifExists)
  | write index data => writers[index]?.map (write · data)
  | createDirectory path => some (createDirectory path)
  | delete path => some (delete path)
  | deleteRecursive path => some (deleteRecursive path)

def perform : Task Writer → StateM MemoryClient Reply
  | createFile path ifExists => return .opened (← (StoreClient.createFile path ifExists).run)
  | write writer data => return .wrote (← (StoreClient.write writer data).run)
  | createDirectory path => return .answered (← (StoreClient.createDirectory path).run)
  | delete path => return .answered (← (StoreClient.delete path).run)
  | deleteRecursive path => return .answered (← (StoreClient.deleteRecursive path).run)

end Task

structure Turn (ι : Type) where
  worker : ι
  task : Task Nat
  host : Disk

/-- A store with several workers, and what each of them was answered so far. -/
structure Shared (ι : Type) where
  client : MemoryClient
  replies : ι → List Reply

section

variable {ι : Type} [DecidableEq ι]

def tasksOf (worker : ι) (turns : List (Turn ι)) : List (Task Nat) :=
  (turns.filter (·.worker = worker)).map Turn.task

namespace Shared

def start (client : MemoryClient) : Shared ι :=
  ⟨client, fun _ => []⟩

def task? (shared : Shared ι) (turn : Turn ι) : Option (Task Writer) :=
  turn.task.withWriter? (writersOf (shared.replies turn.worker))

def step (shared : Shared ι) (turn : Turn ι) : Shared ι :=
  let client := { shared.client with disk := turn.host }
  let (reply, client) := match shared.task? turn with
    | some task => task.perform.run client
    | none => (.noWriter, client)
  ⟨client, Function.update shared.replies turn.worker (shared.replies turn.worker ++ [reply])⟩

def run (shared : Shared ι) (turns : List (Turn ι)) : Shared ι :=
  turns.foldl step shared

end Shared

end

namespace Task

def act (now : Time) (tree : Tree) : Task Writer → Reply × Tree
  | createFile path ifExists =>
    let (result, tree) := (Tree.putFile now (ofString path) ByteArray.empty ifExists).outcome tree
    (.opened (result.map fun _ => ⟨ofString path⟩), tree)
  | write writer data =>
    let (result, tree) := (Tree.append now writer.path data).outcome tree
    (.wrote (result.map fun _ => writer), tree)
  | createDirectory path =>
    let (answer, tree) := (Tree.createDirectory now (ofString path)).run tree
    (.answered (.ok answer), tree)
  | delete path =>
    let (answer, tree) := (Tree.delete (ofString path)).run tree
    (.answered (.ok answer), tree)
  | deleteRecursive path =>
    let (answer, tree) := (Tree.deleteRecursive (ofString path)).run tree
    (.answered (.ok answer), tree)

theorem perform_run (task : Task Writer) (client : MemoryClient) :
    task.perform.run client =
      ((task.act client.disk.clock client.tree).1,
        { client with tree := (task.act client.disk.clock client.tree).2 }) := by
  cases task with
  | createFile path ifExists =>
    let step : Step MemoryClient ClientError Unit :=
      onTree fun now => Tree.putFile now (ofString path) ByteArray.empty ifExists
    have hrun : (createFile path ifExists).perform.run client =
      (.opened ((step >>= fun _ => pure (Writer.mk (ofString path))).outcome client).1,
        ((step >>= fun _ => pure (Writer.mk (ofString path))).outcome client).2) := rfl
    rw [hrun, Step.outcome_bind_pure, onTree_outcome]
    rfl
  | write writer data =>
    let step : Step MemoryClient StreamError Unit := onTree fun now =>
      Tree.append now writer.path data
    have hrun : (write writer data).perform.run client =
      (.wrote ((step >>= fun _ => pure writer).outcome client).1,
        ((step >>= fun _ => pure writer).outcome client).2) := rfl
    rw [hrun, Step.outcome_bind_pure, onTree_outcome]
    rfl
  | createDirectory path => rfl
  | delete path => rfl
  | deleteRecursive path => rfl

def place : Task Writer → StorePath
  | createFile path _ => ofString path
  | write writer _ => writer.path
  | createDirectory path => ofString path
  | delete path => ofString path
  | deleteRecursive path => ofString path

theorem act_local {task : Task Writer} (hplace : task.place.Canonical) :
    Tree.LocalAt task.place fun now tree => task.act now tree := by
  cases task with
  | createFile path ifExists =>
    exact (Tree.putFile_local hplace ByteArray.empty ifExists).map fun result =>
      Reply.opened (result.map fun _ => ⟨ofString path⟩)
  | write writer data =>
    exact (Tree.append_local writer.path data).map fun result =>
      Reply.wrote (result.map fun _ => writer)
  | createDirectory path =>
    exact (Tree.createDirectory_local hplace).map fun answer => Reply.answered (.ok answer)
  | delete path =>
    exact (Tree.delete_local (ofString path)).map fun answer => Reply.answered (.ok answer)
  | deleteRecursive path =>
    exact (Tree.deleteRecursive_local (ofString path)).map fun answer => Reply.answered (.ok answer)

theorem path_of_opened {task : Task Writer} {now : Time} {tree : Tree} {writer : Writer}
    (h : (task.act now tree).1 = .opened (.ok writer)) : writer.path = task.place := by
  cases task with
  | createFile path ifExists =>
    unfold act at h
    rw [Reply.opened.injEq] at h
    cases hput : ((Tree.putFile now (ofString path) ByteArray.empty ifExists).outcome tree).1 with
    | ok value =>
      rw [hput] at h
      cases h
      rfl
    | error error =>
      rw [hput] at h
      cases h
  | write writer data => cases h
  | createDirectory path => cases h
  | delete path => cases h
  | deleteRecursive path => cases h

def actOf (task? : Option (Task Writer)) (now : Time) (tree : Tree) : Reply × Tree :=
  match task? with
  | some task => task.act now tree
  | none => (.noWriter, tree)

section

variable {first second : Option (Task Writer)} {tree other : Tree}

theorem actOf_wellFormed (hplace : ∀ task ∈ first, task.place.Canonical)
    (htree : tree.contents.WellFormed) (now : Time) :
    (actOf first now tree).2.contents.WellFormed := by
  cases first with
  | none => exact htree
  | some task => exact (act_local (hplace task rfl)).wellFormed htree now

theorem actOf_of_contents_eq (hplace : ∀ task ∈ first, task.place.Canonical)
    (htree : tree.contents.WellFormed) (heq : other.contents = tree.contents) (now now' : Time) :
    (actOf first now' other).1 = (actOf first now tree).1 ∧
      (actOf first now' other).2.contents = (actOf first now tree).2.contents := by
  cases first with
  | none => exact ⟨rfl, heq⟩
  | some task => exact (act_local (hplace task rfl)).of_contents_eq htree heq now now'

theorem actOf_commute (hfirst : ∀ task ∈ first, task.place.Canonical)
    (hsecond : ∀ task ∈ second, task.place.Canonical)
    (hapart : ∀ task ∈ first, ∀ task' ∈ second, Apart task.place task'.place)
    (htree : tree.contents.WellFormed) (now now' : Time) :
    (actOf second now' (actOf first now tree).2).1 = (actOf second now' tree).1 ∧
      (actOf second now' (actOf first now tree).2).2.contents =
        (actOf first now (actOf second now' tree).2).2.contents := by
  cases first with
  | none => exact ⟨rfl, rfl⟩
  | some task =>
    cases second with
    | none => exact ⟨rfl, rfl⟩
    | some task' =>
      apply (act_local (hfirst task rfl)).commute (act_local (hsecond task' rfl)) _ htree now now'
      exact hapart task rfl task' rfl

end

end Task

section

variable {ι : Type} [DecidableEq ι] {turn : Turn ι} {turns others : List (Turn ι)}

theorem exists_of_tasksOf_eq
    (h : ∀ worker, tasksOf worker (turn :: turns) = tasksOf worker others) :
    ∃ front turn' back, others = front ++ turn' :: back ∧ turn'.worker = turn.worker ∧
    turn'.task = turn.task ∧
      ∀ other ∈ front, other.worker ≠ turn.worker := by
  have hfirst := (h turn.worker).symm
  unfold tasksOf at hfirst
  rw [List.filter_cons_of_pos (by simp), List.map_cons, List.map_eq_cons_iff] at hfirst
  obtain ⟨turn', rest, hfilter, htask, _⟩ := hfirst
  rw [List.filter_eq_cons_iff] at hfilter
  obtain ⟨front, back, rfl, hfront, hturn', _⟩ := hfilter
  refine ⟨front, turn', back, rfl, by simpa using hturn', htask, ?_⟩
  intro other hother
  simpa using hfront other hother

theorem tasksOf_rest {front back : List (Turn ι)} {turn' : Turn ι}
    (h : ∀ worker, tasksOf worker (turn :: turns) = tasksOf worker (front ++ turn' :: back))
    (hworker : turn'.worker = turn.worker) (htask : turn'.task = turn.task)
    (hfront : ∀ other ∈ front, other.worker ≠ turn.worker) (worker : ι) :
    tasksOf worker turns = tasksOf worker (front ++ back) := by
  have hall := h worker
  unfold tasksOf at hall ⊢
  rw [List.filter_append, List.map_append, List.filter_cons, List.filter_cons, hworker] at hall
  rw [List.filter_append, List.map_append]
  by_cases hsame : turn.worker = worker
  . subst hsame
    have hnone : front.filter (·.worker = turn.worker) = [] := by
      rw [List.filter_eq_nil_iff]
      intro other hother
      simpa using hfront other hother
    rw [hnone, if_pos (by simp), if_pos (by simp), List.map_cons, List.map_cons, htask] at hall
    rw [hnone]
    exact List.tail_eq_of_cons_eq hall
  . simpa [hsame] using hall

end

structure Territories (ι : Type) where
  holds : ι → StorePath → Prop
  canonical : ∀ {worker path}, holds worker path → path.Canonical
  apart : ∀ {worker other path path'}, worker ≠ other → holds worker path → holds other path' →
    Apart path path'

def Territories.Keeps {ι : Type} (territories : Territories ι) (turn : Turn ι) : Prop :=
  ∀ path ∈ turn.task.path?, territories.holds turn.worker (ofString path)

namespace Shared

variable {ι : Type} {territories : Territories ι} {shared other : Shared ι} {turn turn' : Turn ι}

structure Sound (territories : Territories ι) (shared : Shared ι) : Prop where
  tree : shared.client.tree.contents.WellFormed
  writers : ∀ worker, ∀ writer ∈ writersOf (shared.replies worker),
    territories.holds worker writer.path

theorem Sound.holds_place (h : shared.Sound territories) (hturn : territories.Keeps turn) :
    ∀ task ∈ shared.task? turn, territories.holds turn.worker task.place := by
  intro task htask
  unfold task? Task.withWriter? at htask
  unfold Territories.Keeps at hturn
  split at htask
  . next path ifExists heq =>
    cases htask
    exact hturn path (by rw [heq]; rfl)
  . next index data heq =>
    rw [Option.mem_def, Option.map_eq_some_iff] at htask
    obtain ⟨writer, hwriter, rfl⟩ := htask
    exact h.writers turn.worker writer (List.mem_of_getElem? hwriter)
  . next path heq =>
    cases htask
    exact hturn path (by rw [heq]; rfl)
  . next path heq =>
    cases htask
    exact hturn path (by rw [heq]; rfl)
  . next path heq =>
    cases htask
    exact hturn path (by rw [heq]; rfl)

theorem Sound.canonical (h : shared.Sound territories) (hturn : territories.Keeps turn) :
    ∀ task ∈ shared.task? turn, task.place.Canonical :=
  fun task htask => territories.canonical (h.holds_place hturn task htask)

structure Similar (shared other : Shared ι) : Prop where
  replies : other.replies = shared.replies
  contents : other.client.tree.contents = shared.client.tree.contents

theorem Similar.refl (shared : Shared ι) : Similar shared shared :=
  ⟨rfl, rfl⟩

theorem Similar.trans {third : Shared ι} (h : Similar shared other) (hother : Similar other third) :
    Similar shared third :=
  ⟨hother.replies.trans h.replies, hother.contents.trans h.contents⟩

theorem Similar.sound (h : Similar shared other) (hsound : shared.Sound territories) :
    other.Sound territories := by
  constructor
  . rw [h.contents]
    exact hsound.tree
  . rw [h.replies]
    exact hsound.writers

variable [DecidableEq ι] {turns front : List (Turn ι)}

theorem step_eq (shared : Shared ι) (turn : Turn ι) :
    (shared.step turn).client.tree =
      (Task.actOf (shared.task? turn) turn.host.clock shared.client.tree).2 ∧
      (shared.step turn).replies = Function.update shared.replies turn.worker
        (shared.replies turn.worker ++
          [(Task.actOf (shared.task? turn) turn.host.clock shared.client.tree).1]) := by
  unfold step Task.actOf
  cases shared.task? turn with
  | none => exact ⟨rfl, rfl⟩
  | some task =>
    dsimp only
    rw [Task.perform_run]
    exact ⟨rfl, rfl⟩

theorem Sound.step (h : shared.Sound territories) (hturn : territories.Keeps turn) :
    (shared.step turn).Sound territories := by
  obtain ⟨htree, hreplies⟩ := step_eq shared turn
  constructor
  . rw [htree]
    exact Task.actOf_wellFormed (h.canonical hturn) h.tree turn.host.clock
  . intro worker writer hwriter
    rw [hreplies] at hwriter
    by_cases hworker : worker = turn.worker
    . subst hworker
      rw [Function.update_self, mem_writersOf_concat] at hwriter
      cases hwriter with
      | inl hold => exact h.writers turn.worker writer hold
      | inr hnew =>
        cases htask : shared.task? turn with
        | none =>
          rw [htask] at hnew
          cases hnew
        | some task =>
          rw [htask] at hnew
          rw [Task.path_of_opened hnew]
          exact h.holds_place hturn task htask
    . rw [Function.update_of_ne hworker] at hwriter
      exact h.writers worker writer hwriter

theorem Sound.run (h : shared.Sound territories) (hturns : ∀ turn ∈ turns, territories.Keeps turn) :
    (shared.run turns).Sound territories := by
  unfold Shared.run
  induction turns generalizing shared with
  | nil => exact h
  | cons turn turns ih =>
    rw [List.forall_mem_cons] at hturns
    exact ih (h.step hturns.1) hturns.2

theorem Similar.step (h : Similar shared other) (hsound : shared.Sound territories)
    (hturn : territories.Keeps turn) (hworker : turn'.worker = turn.worker)
    (htask : turn'.task = turn.task) :
    Similar (shared.step turn) (other.step turn') := by
  have hsame : other.task? turn' = shared.task? turn := by
    unfold task?
    rw [hworker, htask, h.replies]
  obtain ⟨htree, hreplies⟩ := step_eq shared turn
  obtain ⟨htree', hreplies'⟩ := step_eq other turn'
  obtain ⟨hanswer, hafter⟩ :=
    Task.actOf_of_contents_eq (hsound.canonical hturn) hsound.tree h.contents
    turn.host.clock turn'.host.clock
  constructor
  . rw [hreplies, hreplies', hsame, hworker, h.replies, hanswer]
  . rw [htree, htree', hsame, hafter]

theorem Similar.run (h : Similar shared other) (hsound : shared.Sound territories)
    (hturns : ∀ turn ∈ turns, territories.Keeps turn) :
    Similar (shared.run turns) (other.run turns) := by
  unfold Shared.run
  induction turns generalizing shared other with
  | nil => exact h
  | cons turn turns ih =>
    rw [List.forall_mem_cons] at hturns
    exact ih (h.step hsound hturns.1 rfl rfl) (hsound.step hturns.1) hturns.2

theorem step_step (hsound : shared.Sound territories) (hturn : territories.Keeps turn)
    (hturn' : territories.Keeps turn') (hworkers : turn.worker ≠ turn'.worker) :
    Similar ((shared.step turn).step turn') ((shared.step turn').step turn) := by
  obtain ⟨htree, hreplies⟩ := step_eq shared turn
  obtain ⟨htree', hreplies'⟩ := step_eq shared turn'
  obtain ⟨hafter, hall⟩ := step_eq (shared.step turn) turn'
  obtain ⟨hafter', hall'⟩ := step_eq (shared.step turn') turn
  have htask : (shared.step turn').task? turn = shared.task? turn := by
    unfold task?
    rw [hreplies', Function.update_of_ne hworkers]
  have htask' : (shared.step turn).task? turn' = shared.task? turn' := by
    unfold task?
    rw [hreplies, Function.update_of_ne hworkers.symm]
  have hplace := hsound.canonical hturn
  have hplace' := hsound.canonical hturn'
  have hapart : ∀ task ∈ shared.task? turn, ∀ task' ∈ shared.task? turn',
      Apart task.place task'.place :=
    fun task htask task' htask' =>
      territories.apart hworkers (hsound.holds_place hturn task htask)
      (hsound.holds_place hturn' task' htask')
  obtain ⟨hanswer', hcontents⟩ := Task.actOf_commute hplace hplace' hapart hsound.tree
    turn.host.clock turn'.host.clock
  obtain ⟨hanswer, _⟩ := Task.actOf_commute hplace' hplace (fun task' htask' task htask =>
    (hapart task htask task' htask').symm) hsound.tree turn'.host.clock turn.host.clock
  constructor
  . rw [hall, hall', htask, htask', htree, htree', hanswer, hanswer', hreplies, hreplies',
      Function.update_of_ne hworkers, Function.update_of_ne hworkers.symm,
      Function.update_comm hworkers]
  . rw [hafter, hafter', htask, htask', htree, htree', hcontents]

theorem run_concat (hsound : shared.Sound territories)
    (hfront : ∀ other ∈ front, territories.Keeps other) (hturn : territories.Keeps turn)
    (hworkers : ∀ other ∈ front, other.worker ≠ turn.worker) :
    Similar (shared.run (turn :: front)) (shared.run (front ++ [turn])) := by
  induction front generalizing shared with
  | nil => exact .refl _
  | cons first front ih =>
    rw [List.forall_mem_cons] at hfront hworkers
    have hswap := step_step hsound hturn hfront.1 hworkers.1.symm
    have hrest := ih (hsound.step hfront.1) hfront.2 hworkers.2
    exact (hswap.run ((hsound.step hturn).step hfront.1) hfront.2).trans hrest

theorem run_append (shared : Shared ι) (turns others : List (Turn ι)) :
    shared.run (turns ++ others) = (shared.run turns).run others :=
  List.foldl_append

theorem run_similar {others : List (Turn ι)} (h : Similar shared other)
    (hsound : shared.Sound territories) (hturns : ∀ turn ∈ turns, territories.Keeps turn)
    (hothers : ∀ turn ∈ others, territories.Keeps turn)
    (hsame : ∀ worker, tasksOf worker turns = tasksOf worker others) :
    Similar (shared.run turns) (other.run others) := by
  induction turns generalizing shared other others with
  | nil =>
    cases others with
    | nil => exact h
    | cons turn others =>
      have hnone := hsame turn.worker
      simp [tasksOf] at hnone
  | cons turn turns ih =>
    -- The first turn is also the first one of its worker in the other run, behind turns of others.
    obtain ⟨front, turn', back, rfl, hworker, htask, hworkers⟩ := exists_of_tasksOf_eq hsame
    rw [List.forall_mem_cons] at hturns
    rw [List.forall_mem_append, List.forall_mem_cons] at hothers
    have hmove := run_concat (h.sound hsound) hothers.1 hothers.2.1 (by rwa [hworker])
    have hback := hmove.run ((h.sound hsound).run (by
      rw [List.forall_mem_cons]
      exact ⟨hothers.2.1, hothers.1⟩)) hothers.2.2
    have hrest := ih (h.step hsound hturns.1 hworker htask) (hsound.step hturns.1) hturns.2
      (List.forall_mem_append.mpr ⟨hothers.1, hothers.2.2⟩)
      (tasksOf_rest hsame hworker htask hworkers)
    have hsplit : front ++ turn' :: back = front ++ [turn'] ++ back := by simp
    rw [hsplit, run_append]
    rw [run_append] at hrest
    exact hrest.trans hback

end Shared

/-- Whether no path that one call is given is one that the other is given, or leads through it. -/
def Task.Apart (task other : Task Nat) : Prop :=
  ∀ path ∈ task.path?, ∀ path' ∈ other.path?, StorePath.Apart (ofString path) (ofString path')

instance (task other : Task Nat) : Decidable (task.Apart other) :=
  inferInstanceAs (Decidable (∀ path ∈ task.path?, ∀ path' ∈ other.path?, _))

section

variable {ι : Type} {work : ι → List (Task Nat)}

def Territories.ofWork
    (hapart : ∀ worker other, worker ≠ other → ∀ task ∈ work worker, ∀ task' ∈ work other,
      task.Apart task') : Territories ι where
  holds worker path := ∃ task ∈ work worker, ∃ text ∈ task.path?, ofString text = path
  canonical := by
    rintro worker path ⟨task, _, text, _, rfl⟩
    exact ofString_canonical text
  apart := by
    rintro worker other path path' hne ⟨task, htask, text, htext, rfl⟩
      ⟨task', htask', text', htext', rfl⟩
    exact hapart worker other hne task htask task' htask' text htext text' htext'

variable [DecidableEq ι]

/--
In every state that a store reaches, work on paths that are apart commutes. Two runs in which each
worker makes the same calls in the same order give each of these calls the same answer, and leave
the same entries with the same bytes behind, whenever the calls are made and whatever becomes of the
host in between.
-/
theorem independent_work_commutes (account : String) {disk : Disk} (h : disk.WellFormed)
    (events : List Event)
    (hapart : ∀ worker other, worker ≠ other → ∀ task ∈ work worker, ∀ task' ∈ work other,
      task.Apart task')
    {turns others : List (Turn ι)} (hturns : ∀ worker, tasksOf worker turns = work worker)
    (hothers : ∀ worker, tasksOf worker others = work worker) :
    let shared : Shared ι := .start (after account disk events).client
    (∀ worker, (shared.run turns).replies worker = (shared.run others).replies worker) ∧
      (shared.run turns).client.tree.contents = (shared.run others).client.tree.contents := by
  intro shared
  let territories := Territories.ofWork hapart
  have hkeeps : ∀ {turns : List (Turn ι)}, (∀ worker, tasksOf worker turns = work worker) →
      ∀ turn ∈ turns, territories.Keeps turn := by
    intro turns hturns turn hturn text htext
    refine ⟨turn.task, ?_, text, htext, rfl⟩
    rw [← hturns turn.worker]
    exact List.mem_map_of_mem (List.mem_filter.mpr ⟨hturn, by simp⟩)
  have hsound : shared.Sound territories :=
    ⟨(after_sound account h events).tree, fun worker writer hwriter =>
      absurd hwriter List.not_mem_nil⟩
  have hsimilar := Shared.run_similar (.refl shared) hsound (hkeeps hturns) (hkeeps hothers)
    fun worker => (hturns worker).trans (hothers worker).symm
  refine ⟨fun worker => ?_, hsimilar.contents.symm⟩
  rw [hsimilar.replies]

end

def workSample : Bool → List (Task Nat)
  | true => [.createFile "d/./a" .fail, .write 0 "x".toUTF8, .delete "/d/a", .write 0 "y".toUTF8]
  | false =>
    [.createDirectory "d/b/c", .createFile "d/b/c/e" .overwrite, .write 0 "z".toUTF8,
      .deleteRecursive "d//b"]

theorem independent_work_commutes_sample :
    let turnOf worker task := Turn.mk worker task (Disk.empty default)
    let first := (workSample true).map (turnOf true) ++ (workSample false).map (turnOf false)
    let last := (workSample false).map (turnOf false) ++ (workSample true).map (turnOf true)
    let shared : Shared Bool :=
      .start (after "acct" (Disk.empty default) [.called (.createFile "d2" .fail)]).client
    (Disk.empty default).WellFormed ∧
      (∀ worker other, worker ≠ other → ∀ task ∈ workSample worker, ∀ task' ∈ workSample other,
        task.Apart task') ∧
      (∀ worker, tasksOf worker first = workSample worker) ∧ (∀ worker,
        tasksOf worker last = workSample worker) ∧
      (∀ worker, (shared.run first).replies worker = (shared.run last).replies worker) ∧
      (shared.run first).client.tree.contents = (shared.run last).client.tree.contents := by
  intro turnOf first last
  have hdisk := Disk.empty_wellFormed default
  have hapart : ∀ worker other, worker ≠ other → ∀ task ∈ workSample worker,
      ∀ task' ∈ workSample other, task.Apart task' := by decide +kernel
  have hfirst : ∀ worker, tasksOf worker first = workSample worker := by
    intro worker
    cases worker <;> rfl
  have hlast : ∀ worker, tasksOf worker last = workSample worker := by
    intro worker
    cases worker <;> rfl
  have hcommute :=
    independent_work_commutes "acct" hdisk [.called (.createFile "d2" .fail)] hapart hfirst hlast
  exact ⟨hdisk, hapart, hfirst, hlast, hcommute⟩

end LakeStore.MemoryClient
