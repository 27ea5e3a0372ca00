import Phix.Foundation.Links
import Phix.Foundation.Traces
import Phix.Task.Loading

/-! # The list of tasks

`task_new` links a task after the tail of the list and `task_free` unlinks one, but
`task_list_remove` never repairs the `prev` of the task behind the one it removes. The list is
well linked in every state of a run exactly when each task that is freed is the tail
(`Phix.task_list_integrity_iff`).
-/

namespace Phix

open Traces Links

/-- The kernel, with the tasks that have been created and not freed in order of creation. -/
structure TaskSystem where
  kernel : Kernel
  tasks : List Word

/-- A call on the list of tasks, or other work of the kernel between such calls. -/
inductive TaskOp where
  | taskNew (process : Word)
  | taskFree (task : Word)
  | taskSwitch (task : Word)
  | work (processAt : Word → Process) (elfFileAt : Word → ElfFile) (calls : List KernelCall)

namespace TaskSystem

def step (system : TaskSystem) : TaskOp → TaskSystem
  | .taskNew process =>
      match system.kernel.taskNew process with
      | none => system
      | some (task, kernel) =>
          { kernel, tasks := if task.toInt < 0 then system.tasks else system.tasks ++ [task] }
  | .taskFree task => { kernel := system.kernel.taskFree task, tasks := system.tasks.erase task }
  | .taskSwitch task => { system with kernel := (system.kernel.taskSwitch task).2 }
  | .work processAt elfFileAt calls =>
      { system with kernel := { system.kernel.kernelCalls calls with processAt, elfFileAt } }

/-- The calls that return, on tasks of the list; other work makes harmless requests of the heap. -/
def Legal (system : TaskSystem) : TaskOp → Prop
  | .taskNew process => (system.kernel.taskNew process).isSome
  | .taskFree task | .taskSwitch task => task ∈ system.tasks
  | .work _ _ calls =>
      system.kernel.machine.Permits Request.Harmless (system.kernel.machine.kernelCalls calls)

/-- The links of the tasks. -/
def Listed (system : TaskSystem) : Prop :=
  Linked null (fun t => (system.kernel.taskAt t).next) (fun t => (system.kernel.taskAt t).prev)
    system.kernel.taskHead system.kernel.taskTail system.tasks

/-- What the list of tasks must be: its links spell out the live tasks in order of creation, no
link leads to a task that has been freed, a task is current unless there is none, and
`task_get_next` comes from every task to every task. -/
structure WellLinked (system : TaskSystem) : Prop where
  listed : system.Listed
  live : ∀ t ∈ system.tasks, system.kernel.machine.live t = some ⟨sizeofTask, .task⟩
  links : ∀ t ∈ system.tasks,
    ((system.kernel.taskAt t).next = null ∨ (system.kernel.taskAt t).next ∈ system.tasks) ∧
    ((system.kernel.taskAt t).prev = null ∨ (system.kernel.taskAt t).prev ∈ system.tasks)
  current : system.kernel.currentTask ∈ system.tasks ∨
    system.kernel.currentTask = null ∧ system.tasks = []
  visits : ∀ t ∈ system.tasks, ∀ u ∈ system.tasks, ∃ n,
    (fun current => { system.kernel with currentTask := current }.taskGetNext)^[n] t = u

/-- A task that is freed is the tail of the list. -/
def FreesTail (system : TaskSystem) : TaskOp → Prop
  | .taskFree task => task = system.kernel.taskTail
  | _ => True

end TaskSystem

namespace Kernel

/-- The links `task_new` sets. -/
structure Enlisted (kernel : Kernel) (task : Word) (next : Kernel) : Prop where
  pointer : task = (kernel.machine.kzalloc .task sizeofTask).1
  head : next.taskHead = if kernel.taskHead = null then task else kernel.taskHead
  tail : next.taskTail = task
  current : next.currentTask = if kernel.taskHead = null then task else kernel.currentTask
  last : (next.taskAt task).next = null
  behind : (next.taskAt task).prev = if kernel.taskHead = null then null else kernel.taskTail
  joined : kernel.taskHead ≠ null → (next.taskAt kernel.taskTail).next = task
  nexts : ∀ u, u ≠ task → u ≠ kernel.taskTail → (next.taskAt u).next = (kernel.taskAt u).next
  prevs : ∀ u, u ≠ task → (next.taskAt u).prev = (kernel.taskAt u).prev
  chunks : ∀ u, u ≠ task → (next.taskAt u).pageDirectory = (kernel.taskAt u).pageDirectory

theorem taskInit_enlisted {kernel next : Kernel} {task process : Word} {ret : Int}
    (made : kernel.taskInit task process = some (ret, next)) :
    ret = - EIO ∨ ret = 0 ∧ next.taskHead = kernel.taskHead ∧ next.taskTail = kernel.taskTail ∧
      next.currentTask = kernel.currentTask ∧ ∃ record : Task,
        record.next = null ∧ record.prev = null ∧
          next.taskAt = Function.update kernel.taskAt task record := by
  unfold taskInit at made
  rw [Option.bind_eq_bind, Option.bind_eq_some_iff] at made
  obtain ⟨⟨pageDirectory, machine⟩, _, rest⟩ := made
  dsimp only at rest
  split at rest
  · cases rest
    exact .inl rfl
  · cases rest
    refine .inr ⟨rfl, rfl, rfl, rfl, _, ?_, ?_, Function.update_idem ..⟩
    · rfl
    · rfl

theorem taskNew_enlisted {kernel next : Kernel} {process task : Word}
    (made : kernel.taskNew process = some (task, next)) (created : ¬ task.toInt < 0)
    (apart : kernel.taskHead ≠ null → kernel.taskTail ≠ task) : kernel.Enlisted task next := by
  unfold taskNew at made
  dsimp only at made
  split at made
  · cases made
    exact absurd (by decide) created
  · rw [Option.bind_eq_bind, Option.bind_eq_some_iff] at made
    obtain ⟨⟨ret, middle⟩, started, rest⟩ := made
    rcases taskInit_enlisted started with
      rfl | ⟨rfl, head, tail, current, record, noNext, noPrev, tasks⟩
    · cases rest
      exact absurd (show (BitVec.ofInt 32 (- EIO)).toInt < 0 by decide) created
    · have headSame : middle.taskHead = kernel.taskHead := head
      have tailSame : middle.taskTail = kernel.taskTail := tail
      have tasksSame : middle.taskAt = Function.update kernel.taskAt
          (kernel.kzalloc .task sizeofTask).1 record := tasks
      simp only [lt_irrefl, if_false, headSame, tailSame] at rest
      split at rest
      · rename_i empty
        cases rest
        exact {
          pointer := rfl
          head := by rw [if_pos empty]
          tail := rfl
          current := by rw [if_pos empty]
          last := by rw [tasksSame, Function.update_self, noNext]
          behind := by rw [tasksSame, Function.update_self, noPrev, if_pos empty]
          joined := fun nonempty => absurd empty nonempty
          nexts := fun u other _ => by rw [tasksSame, Function.update_of_ne other]
          prevs := fun u other => by rw [tasksSame, Function.update_of_ne other]
          chunks := fun u other => by rw [tasksSame, Function.update_of_ne other] }
      · rename_i nonempty
        cases rest
        have different := apart nonempty
        exact {
          pointer := rfl
          head := by
            rw [if_neg nonempty]
            exact headSame
          tail := rfl
          current := by
            rw [if_neg nonempty]
            exact current
          last := by simp [setTask, tasksSame, different.symm, noNext]
          behind := by simp [setTask, nonempty]
          joined := fun _ => by simp [setTask, different]
          nexts := fun u other notTail => by simp [setTask, tasksSame, other, notTail]
          prevs := fun u other => by
            by_cases atTail : u = kernel.taskTail
            · simp [setTask, tasksSame, atTail, different]
            · simp [setTask, tasksSame, other, atTail]
          chunks := fun u other => by
            by_cases atTail : u = kernel.taskTail
            · simp [setTask, tasksSame, atTail, different]
            · simp [setTask, tasksSame, other, atTail] }

/-- The links `task_free` leaves. -/
structure Delisted (kernel : Kernel) (task : Word) (next : Kernel) : Prop where
  head : next.taskHead =
    if task = kernel.taskHead then (kernel.taskAt task).next else kernel.taskHead
  tail : next.taskTail =
    if task = kernel.taskTail then (kernel.taskAt task).prev else kernel.taskTail
  current : next.currentTask = if task = kernel.currentTask then
      if (kernel.taskAt task).next = null then next.taskHead else (kernel.taskAt task).next
    else kernel.currentTask
  joined : (kernel.taskAt task).prev ≠ null →
    (next.taskAt (kernel.taskAt task).prev).next = (kernel.taskAt task).next
  nexts : ∀ u, u ≠ (kernel.taskAt task).prev → (next.taskAt u).next = (kernel.taskAt u).next
  prevs : ∀ u, (next.taskAt u).prev = (kernel.taskAt u).prev
  chunks : ∀ u, (next.taskAt u).pageDirectory = (kernel.taskAt u).pageDirectory
  machine : next.machine =
    (kernel.machine.pagingFreeChunk (kernel.taskAt task).pageDirectory).kfree task

/-- `task_list_remove` of a task that is not linked to itself. -/
theorem taskListRemove_eq (kernel : Kernel) {task : Word}
    (apart : (kernel.taskAt task).prev ≠ task) :
    kernel.taskListRemove task =
      let prev := (kernel.taskAt task).prev
      let next := (kernel.taskAt task).next
      let head := if task = kernel.taskHead then next else kernel.taskHead
      { kernel with
        taskAt := if prev = null then kernel.taskAt else
          Function.update kernel.taskAt prev { kernel.taskAt prev with next }
        taskHead := head
        taskTail := if task = kernel.taskTail then prev else kernel.taskTail
        currentTask := if task = kernel.currentTask then
            if next = null then head else next else kernel.currentTask } := by
  obtain ⟨machine, processAt, taskAt, elfFileAt, processes, currentProcess, currentTask, head,
    tail⟩ := kernel
  dsimp only at apart
  unfold taskListRemove taskGetNext setTask
  dsimp only
  have same : ∀ record, Function.update taskAt (taskAt task).prev record task = taskAt task :=
    fun record => Function.update_of_ne apart.symm ..
  rcases eq_or_ne currentTask task with rfl | different
  · rcases Classical.propComplete ((taskAt currentTask).prev = null) with first | first <;>
      rcases Classical.propComplete (currentTask = head) with isHead | isHead <;>
      rcases Classical.propComplete (currentTask = tail) with isTail | isTail <;>
      simp only [first, isHead, isTail, same, if_true, if_false]
  · rcases Classical.propComplete ((taskAt task).prev = null) with first | first <;>
      rcases Classical.propComplete (task = head) with isHead | isHead <;>
      rcases Classical.propComplete (task = tail) with isTail | isTail <;>
      simp only [first, isHead, isTail, different.symm, same, if_true, if_false]

theorem taskFree_delisted (kernel : Kernel) {task : Word} (notNull : task ≠ null)
    (apart : (kernel.taskAt task).prev ≠ task) : kernel.Delisted task (kernel.taskFree task) := by
  unfold taskFree
  rw [if_neg notNull]
  dsimp only
  rw [taskListRemove_eq { kernel with
    machine := kernel.machine.pagingFreeChunk (kernel.taskAt task).pageDirectory } apart]
  exact {
    head := rfl
    tail := rfl
    current := rfl
    joined := fun linked => by simp [kfree, linked]
    nexts := fun u other => by
      by_cases first : (kernel.taskAt task).prev = null
      · simp [kfree, first]
      · simp [kfree, first, other]
    prevs := fun u => by
      by_cases first : (kernel.taskAt task).prev = null
      · simp [kfree, first]
      · by_cases here : u = (kernel.taskAt task).prev
        · simp only [kfree, if_neg first, here, Function.update_self]
        · simp [kfree, first, here]
    chunks := fun u => by
      by_cases first : (kernel.taskAt task).prev = null
      · simp [kfree, first]
      · by_cases here : u = (kernel.taskAt task).prev
        · simp only [kfree, if_neg first, here, Function.update_self]
        · simp [kfree, first, here]
    machine := rfl }

end Kernel

namespace TaskSystem

/-- What the calls keep: the list with its tasks live, each with a chunk of its own. -/
structure Sound (system : TaskSystem) : Prop where
  listed : system.Listed
  paging : system.kernel.machine.PagingSound
  live : ∀ t ∈ system.tasks, system.kernel.machine.live t = some ⟨sizeofTask, .task⟩
  current : system.kernel.currentTask ∈ system.tasks ∨
    system.kernel.currentTask = null ∧ system.tasks = []
  chunks : ∀ t ∈ system.tasks,
    system.kernel.machine.LiveChunk (system.kernel.taskAt t).pageDirectory
  distinct : ∀ t ∈ system.tasks, ∀ u ∈ system.tasks,
    (system.kernel.taskAt t).pageDirectory = (system.kernel.taskAt u).pageDirectory → t = u

namespace Sound

variable {system : TaskSystem} (sound : system.Sound)

include sound

theorem wellLinked : system.WellLinked where
  listed := sound.listed
  live := sound.live
  links _ member := ⟨sound.listed.next_mem member, sound.listed.prev_mem member⟩
  current := sound.current
  visits _ here _ there := sound.listed.advance_visits here there

/-- What `task_free` releases. -/
theorem release {t : Word} (member : t ∈ system.tasks) :
    let machine := (system.kernel.machine.pagingFreeChunk
      (system.kernel.taskAt t).pageDirectory).kfree t
    machine.PagingSound ∧ ∀ u ∈ system.tasks, u ≠ t →
      machine.live u = some ⟨sizeofTask, .task⟩ ∧
      machine.LiveChunk (system.kernel.taskAt u).pageDirectory := by
  have held := sound.live t member
  obtain ⟨directory, has⟩ := sound.paging.directory (sound.chunks t member)
  have released := has.pagingFreeChunk sound.paging.sound
  have freed := sound.paging.freeChunk has
  have keeps : ∀ u ∈ system.tasks, (system.kernel.machine.pagingFreeChunk
      (system.kernel.taskAt t).pageDirectory).live u = some ⟨sizeofTask, .task⟩ := by
    intro u there
    rw [released.kept u, sound.live u there]
    exact fun part => has.part_isPaging (sound.live u there) part
  refine ⟨freed.kfree (keeps t member) id, fun u there other => ⟨?_, ?_⟩⟩
  · exact (Function.update_of_ne other ..).trans (keeps u there)
  · obtain ⟨base, size, isChunk⟩ := sound.chunks u there
    have different : (system.kernel.taskAt t).pageDirectory ≠
        (system.kernel.taskAt u).pageDirectory :=
      fun same => other (sound.distinct t member u there same).symm
    obtain ⟨table, hasOther⟩ := sound.paging.chunks _ base ⟨size, isChunk⟩
    have apart := hasOther.parts_disjoint has
      (sound.paging.base_ne different has.isChunk ⟨size, isChunk⟩).symm (.inl rfl)
    have stays : (system.kernel.taskAt u).pageDirectory ≠ t := by
      intro same
      rw [same, held] at isChunk
      cases isChunk
    refine ⟨base, size, (Function.update_of_ne stays ..).trans ?_⟩
    exact (released.kept _ apart).trans isChunk

/-- `task_free` of the tail unlinks it. -/
theorem taskFree_tail (nonempty : system.tasks ≠ []) :
    (system.step (.taskFree system.kernel.taskTail)).Sound := by
  obtain ⟨init, spelled⟩ := sound.listed.eq_append_tail nonempty
  have listed := sound.listed
  unfold Listed at listed
  rw [spelled] at listed
  have member : system.kernel.taskTail ∈ system.tasks := by
    rw [spelled]
    exact List.mem_concat_self
  have fresh := listed.tail_notMem
  have noNext := listed.next_tail
  have notNull := sound.listed.proper _ member
  have delisted := system.kernel.taskFree_delisted notNull (sound.listed.prev_ne member)
  obtain ⟨paging, kept⟩ := sound.release member
  have rest : (system.step (.taskFree system.kernel.taskTail)).tasks = init := by
    change system.tasks.erase system.kernel.taskTail = init
    rw [spelled, List.erase_append_right _ fresh, List.erase_cons_head, List.append_nil]
  have within : ∀ u ∈ init, u ∈ system.tasks ∧ u ≠ system.kernel.taskTail := by
    intro u there
    refine ⟨?_, fun same => fresh (same ▸ there)⟩
    rw [spelled]
    exact List.mem_append_left _ there
  have listedAfter : (system.step (.taskFree system.kernel.taskTail)).Listed := by
    unfold Listed
    rw [rest]
    have tail : (system.step (.taskFree system.kernel.taskTail)).kernel.taskTail =
        (system.kernel.taskAt system.kernel.taskTail).prev := delisted.tail.trans (if_pos rfl)
    rw [tail]
    refine listed.dropLast ?_ ?_ ?_ fun u _ => delisted.prevs u
    · refine delisted.head.trans ?_
      simp only [listed.tail_eq_head_iff, noNext]
    · intro u there same
      have linked : (system.kernel.taskAt system.kernel.taskTail).prev ≠ null :=
        same ▸ sound.listed.proper u (within u there).1
      rw [same]
      exact (delisted.joined linked).trans noNext
    · exact fun u _ other => delisted.nexts u other
  refine {
    listed := listedAfter
    paging := by
      change (system.kernel.taskFree system.kernel.taskTail).machine.PagingSound
      rw [delisted.machine]
      exact paging
    live := fun u there => ?_
    current := ?_
    chunks := fun u there => ?_
    distinct := fun u here v there same => ?_ }
  · rw [rest] at there
    change (system.kernel.taskFree system.kernel.taskTail).machine.live u = _
    rw [delisted.machine]
    exact (kept u (within u there).1 (within u there).2).1
  · have current := delisted.current
    rw [noNext, if_pos rfl] at current
    change (system.kernel.taskFree system.kernel.taskTail).currentTask ∈ _ ∨
      (system.kernel.taskFree system.kernel.taskTail).currentTask = null ∧ _
    rw [current]
    split
    · rcases Classical.em (init = []) with empty | some
      · refine .inr ⟨?_, rest.trans empty⟩
        exact listedAfter.head_eq_null_iff.mpr (rest.trans empty)
      · exact .inl (listedAfter.head_mem (by rwa [rest]))
    · rename_i other
      rcases sound.current with inside | ⟨_, empty⟩
      · left
        rw [rest]
        rw [spelled, List.mem_append, List.mem_singleton] at inside
        exact inside.resolve_right fun same => other same.symm
      · exact absurd empty nonempty
  · rw [rest] at there
    change (system.kernel.taskFree system.kernel.taskTail).machine.LiveChunk
      ((system.kernel.taskFree system.kernel.taskTail).taskAt u).pageDirectory
    rw [delisted.machine, delisted.chunks]
    exact (kept u (within u there).1 (within u there).2).2
  · rw [rest] at here there
    refine sound.distinct u (within u here).1 v (within v there).1 ?_
    rw [← delisted.chunks u, ← delisted.chunks v]
    exact same

/-- After `task_free` of another task the next one is still linked back to it. -/
theorem not_wellLinked_of_not_tail {t : Word} (member : t ∈ system.tasks)
    (notTail : t ≠ system.kernel.taskTail) : ¬ (system.step (.taskFree t)).WellLinked := by
  obtain ⟨i, here⟩ := List.mem_iff_getElem?.mp member
  have inside := (List.getElem?_eq_some_iff.mp here).1
  have before := mt (sound.listed.eq_tail_iff here).mpr notTail
  obtain ⟨d, follows⟩ := Linked.present (show i + 1 < system.tasks.length by omega)
  have back : (system.kernel.taskAt d).prev = t := sound.listed.backward i t d here follows
  have notNull := sound.listed.proper t member
  have delisted := system.kernel.taskFree_delisted notNull (sound.listed.prev_ne member)
  have other : d ≠ t := by
    rintro rfl
    exact absurd (sound.listed.index_unique here follows) (by omega)
  intro wellLinked
  have stays : d ∈ (system.step (.taskFree t)).tasks :=
    (List.mem_erase_of_ne other).mpr (List.mem_of_getElem? follows)
  have dangling : ((system.step (.taskFree t)).kernel.taskAt d).prev = t :=
    (delisted.prevs d).trans back
  rcases (wellLinked.links d stays).2 with isNull | listed
  · exact notNull (dangling.symm.trans isNull)
  · rw [dangling] at listed
    exact (sound.listed.nodup.mem_erase_iff.mp listed).1 rfl

/-- Other work of the kernel. -/
theorem congr {kernel : Kernel} (keeps : system.kernel.machine.Keeps kernel.machine)
    (tasks : kernel.taskAt = system.kernel.taskAt) (head : kernel.taskHead = system.kernel.taskHead)
    (tail : kernel.taskTail = system.kernel.taskTail)
    (current : kernel.currentTask ∈ system.tasks ∨ kernel.currentTask = null ∧ system.tasks = []) :
    ({ system with kernel } : TaskSystem).Sound where
  listed := by
    unfold Listed
    dsimp only
    rw [tasks, head, tail]
    exact sound.listed
  paging := keeps.paging
  live t member := keeps.kept t _ (sound.live t member) (by decide)
  current := current
  chunks t member := by
    obtain ⟨base, size, isChunk⟩ := sound.chunks t member
    refine ⟨base, size, ?_⟩
    dsimp only
    rw [tasks]
    exact keeps.kept _ _ isChunk (by simp)
  distinct t here u there same := by
    dsimp only at same
    rw [tasks] at same
    exact sound.distinct t here u there same

/-- `task_new` adds a task after the tail, or leaves the list alone. -/
theorem taskNew {process task : Word} {kernel : Kernel}
    (made : system.kernel.taskNew process = some (task, kernel)) :
    (system.step (.taskNew process)).Sound := by
  have stepped : system.step (.taskNew process) =
      { kernel, tasks := if task.toInt < 0 then system.tasks else system.tasks ++ [task] } := by
    simp only [step, made]
  rw [stepped]
  rcases Kernel.taskNew_newTask sound.paging process made with ⟨rfl, _, rfl⟩ | ⟨directory, new⟩
  · rw [if_pos (by decide)]
    have harmless := system.kernel.machine.request_block_harmless
      (show 1 ≤ sizeofTask.toNat by decide) (by decide)
    exact sound.congr ((Machine.Keeps.refl sound.paging).kzalloc
      (show ¬ Owner.task.IsPaging from id) harmless).1 rfl rfl rfl sound.current
  · obtain ⟨created, notNull⟩ := new.task_ne_null
    have positive : ¬ task.toInt < 0 := by omega
    have fresh : task ∉ system.tasks := by
      intro member
      have held := sound.live task member
      rw [new.fresh] at held
      cases held
    have tailMember : system.tasks ≠ [] → system.kernel.taskTail ∈ system.tasks := by
      intro nonempty
      obtain ⟨init, spelled⟩ := sound.listed.eq_append_tail nonempty
      rw [spelled]
      exact List.mem_concat_self
    have empty := sound.listed.head_eq_null_iff
    have enlisted := Kernel.taskNew_enlisted made positive fun nonempty same =>
      fresh (same ▸ tailMember (mt empty.mpr nonempty))
    have other : ∀ u ∈ system.tasks, u ≠ task := fun u member same => fresh (same ▸ member)
    rw [if_neg positive]
    have chunkOf : ∀ u ∈ system.tasks, ∃ base size,
        kernel.machine.live (kernel.taskAt u).pageDirectory = some ⟨size, .chunk base⟩ ∧
          (kernel.taskAt u).pageDirectory ≠ (kernel.taskAt task).pageDirectory := by
      intro u member
      obtain ⟨base, size, isChunk⟩ := sound.chunks u member
      rw [enlisted.chunks u (other u member)]
      refine ⟨base, size, new.grown.kept _ _ isChunk, fun same => ?_⟩
      rw [same, new.freshChunk] at isChunk
      cases isChunk
    exact {
      listed := by
        unfold Listed
        dsimp only
        rw [enlisted.tail]
        refine sound.listed.snoc fresh notNull ?_ enlisted.last ?_ ?_
          (fun u member notTail => enlisted.nexts u (other u member) notTail)
          fun u member => enlisted.prevs u (other u member)
        · rw [enlisted.head]
          simp only [empty]
        · rw [enlisted.behind]
          split
          · rename_i none
            rw [sound.listed.ends, empty.mp none]
            rfl
          · rfl
        · exact fun some => enlisted.joined (mt empty.mp some)
      paging := new.paging
      live := fun u member => by
        rcases List.mem_append.mp member with old | added
        · exact new.grown.kept _ _ (sound.live u old)
        · rw [List.mem_singleton.mp added]
          exact new.held
      current := by
        left
        dsimp only
        rw [enlisted.current]
        split
        · exact List.mem_concat_self
        · rename_i some
          refine List.mem_append_left _ (sound.current.resolve_right fun none => ?_)
          exact some (empty.mpr none.2)
      chunks := fun u member => by
        rcases List.mem_append.mp member with old | added
        · obtain ⟨base, size, isChunk, _⟩ := chunkOf u old
          exact ⟨base, size, isChunk⟩
        · rw [List.mem_singleton.mp added]
          exact ⟨directory.base, new.has.isChunk⟩
      distinct := fun u here v there same => by
        dsimp only at same
        rcases List.mem_append.mp here with left | left <;>
          rcases List.mem_append.mp there with right | right
        · rw [enlisted.chunks u (other u left), enlisted.chunks v (other v right)] at same
          exact sound.distinct u left v right same
        · obtain ⟨_, _, _, apart⟩ := chunkOf u left
          rw [List.mem_singleton.mp right] at same
          exact absurd same apart
        · obtain ⟨_, _, _, apart⟩ := chunkOf v right
          rw [List.mem_singleton.mp left] at same
          exact absurd same.symm apart
        · rw [List.mem_singleton.mp left, List.mem_singleton.mp right] }

theorem step {op : TaskOp} (legal : system.Legal op) (condition : system.FreesTail op) :
    (system.step op).Sound := by
  cases op with
  | taskNew process =>
      obtain ⟨⟨task, kernel⟩, made⟩ := Option.isSome_iff_exists.mp legal
      exact sound.taskNew made
  | taskFree task =>
      obtain rfl : task = system.kernel.taskTail := condition
      exact sound.taskFree_tail (List.ne_nil_of_mem legal)
  | taskSwitch task =>
      exact sound.congr (Machine.Keeps.refl sound.paging) rfl rfl rfl (.inl legal)
  | work processAt elfFileAt calls =>
      have keeps := (Machine.kernelCalls_keeps system.kernel.machine calls).apply legal
      exact sound.congr (keeps sound.paging) rfl rfl rfl sound.current

end Sound

/-- The kernel before its first task. -/
def booted (memory : ByteMemory) : TaskSystem where
  kernel := Kernel.booted memory
  tasks := []

theorem booted_sound (memory : ByteMemory) : (booted memory).Sound where
  listed := Linked.nil ..
  paging := Machine.booted_pagingSound memory
  live _ member := absurd member List.not_mem_nil
  current := .inr ⟨rfl, rfl⟩
  chunks _ member := absurd member List.not_mem_nil
  distinct _ member := absurd member List.not_mem_nil

end TaskSystem

/-- A free of the tail keeps the list well linked, and any other free breaks it at once. -/
theorem TaskSystem.Sound.throughout_iff {system : TaskSystem} (sound : system.Sound)
    {ops : List TaskOp} (legal : Along TaskSystem.step TaskSystem.Legal system ops) :
    Throughout TaskSystem.step TaskSystem.WellLinked system ops ↔
      Along TaskSystem.step TaskSystem.FreesTail system ops := by
  refine throughout_iff_along TaskSystem.Sound (fun _ _ sound legal met => sound.step legal met) ?_
    (fun _ sound => sound.wellLinked) sound legal
  intro system op sound legal unmet
  cases op with
  | taskFree task => exact sound.not_wellLinked_of_not_tail legal unmet
  | taskNew process => exact absurd trivial unmet
  | taskSwitch task => exact absurd trivial unmet
  | work processAt elfFileAt calls => exact absurd trivial unmet

/-- **In a run of the kernel the list of tasks is well linked in every state exactly when every
task that is freed is the tail of the list.** -/
theorem task_list_integrity_iff (memory : ByteMemory) {ops : List TaskOp}
    (legal : Along TaskSystem.step TaskSystem.Legal (TaskSystem.booted memory) ops) :
    Throughout TaskSystem.step TaskSystem.WellLinked (TaskSystem.booted memory) ops ↔
      Along TaskSystem.step TaskSystem.FreesTail (TaskSystem.booted memory) ops :=
  (TaskSystem.booted_sound memory).throughout_iff legal

/-- Two tasks can be created on an empty heap, and either of them freed; the first is at the heap's
first block, and the other is the tail. -/
theorem TaskSystem.Sound.two_tasks {system : TaskSystem} (sound : system.Sound)
    (empty : system.tasks = []) (free : system.kernel.machine.FreeFrom 0) (process other : Word) :
    ∃ tail, (∀ task, task = poolBlock 0 ∨ task = tail →
        Along TaskSystem.step TaskSystem.Legal system
          [.taskNew process, .taskNew other, .taskFree task] ∧
        (Along TaskSystem.step TaskSystem.FreesTail system
          [.taskNew process, .taskNew other, .taskFree task] ↔ task = tail)) ∧
      poolBlock 0 ≠ tail := by
  have noTail : system.kernel.taskHead = null := sound.listed.head_eq_null_iff.mpr empty
  obtain ⟨task, next, _, made, new, takes⟩ :=
    Kernel.taskNew_some sound.paging process free (by omega)
  have rest := takes.freeFrom 0 free (by omega)
  obtain ⟨created, notNull⟩ := new.task_ne_null
  have enlisted := Kernel.taskNew_enlisted made (by omega) fun some => absurd noTail some
  have stepped : system.step (.taskNew process) = { kernel := next, tasks := [task] } := by
    simp only [TaskSystem.step, made, empty, List.nil_append,
      if_neg (show ¬ task.toInt < 0 by omega)]
  have middle := sound.taskNew made
  rw [stepped] at middle
  obtain ⟨second, last, _, madeSecond, newSecond, _⟩ :=
    Kernel.taskNew_some new.paging other rest (by omega)
  obtain ⟨createdSecond, _⟩ := newSecond.task_ne_null
  have different : task ≠ second := by
    rintro rfl
    have held := new.held
    rw [newSecond.fresh] at held
    cases held
  have enlistedSecond := Kernel.taskNew_enlisted madeSecond (by omega) fun _ same =>
    different (enlisted.tail.symm.trans same)
  have steppedSecond : ({ kernel := next, tasks := [task] } : TaskSystem).step (.taskNew other) =
      { kernel := last, tasks := [task, second] } := by
    simp only [TaskSystem.step, madeSecond, List.singleton_append,
      if_neg (show ¬ second.toInt < 0 by omega)]
  have atFirst : task = poolBlock 0 := by
    rw [enlisted.pointer]
    exact Machine.kzalloc_first .task (by decide) (free.freeRun (by decide))
  rw [← atFirst]
  refine ⟨second, fun freed member => ⟨⟨Option.isSome_iff_exists.mpr ⟨_, made⟩, ?_, ?_, trivial⟩,
    ?_⟩, different⟩
  · rw [stepped]
    exact Option.isSome_iff_exists.mpr ⟨_, madeSecond⟩
  · rw [stepped, steppedSecond]
    rcases member with rfl | rfl
    · exact List.mem_cons_self ..
    · exact List.mem_cons_of_mem _ (List.mem_cons_self ..)
  · have tail : last.taskTail = second := enlistedSecond.tail
    unfold Along Along Along
    rw [stepped, steppedSecond]
    exact ⟨fun freesTail => freesTail.2.2.1.trans tail,
      fun isTail => ⟨trivial, trivial, isTail.trans tail.symm, trivial⟩⟩

/-- Two tasks are created and the tail is freed. -/
theorem task_list_integrity_two : ∃ tail, poolBlock 0 ≠ tail ∧
    Throughout TaskSystem.step TaskSystem.WellLinked (TaskSystem.booted fun _ => 0)
      [.taskNew null, .taskNew null, .taskFree tail] := by
  obtain ⟨tail, runs, different⟩ :=
    (TaskSystem.booted_sound fun _ => 0).two_tasks rfl (Machine.booted_freeFrom _) null null
  obtain ⟨legal, freesTail⟩ := runs tail (.inr rfl)
  exact ⟨tail, different, (task_list_integrity_iff _ legal).mpr (freesTail.mpr rfl)⟩

/-- Two tasks are created and the first is freed: the second is still linked back to it. -/
theorem task_list_integrity_fails :
    ¬ Throughout TaskSystem.step TaskSystem.WellLinked (TaskSystem.booted fun _ => 0)
      [.taskNew null, .taskNew null, .taskFree 0x01000000] := by
  have sound := TaskSystem.booted_sound fun _ => 0
  obtain ⟨tail, runs, different⟩ := sound.two_tasks rfl (Machine.booted_freeFrom _) null null
  obtain ⟨legal, freesTail⟩ := runs (poolBlock 0) (.inl rfl)
  have address : poolBlock 0 = 0x01000000 := by decide
  rw [← address, sound.throughout_iff legal]
  exact mt freesTail.mp different

end Phix
