import Mathlib.Logic.Relation
import Mathlib.Tactic.ByContra
import Mathlib.Tactic.SplitIfs
import QueryAlgebra.Traversal

/-! # The configurations of a traversal

A traversal on a stack of its own goes through configurations: the tasks still to be done, the
finished nodes, and what the hooks keep. `Configuration.step` treats the first task, and
`run_eq_step` says that running is stepping until there is an answer.

The tasks of a configuration know how many finished nodes they need. `Task.settle` counts what they
leave behind, and every configuration that is reached leaves exactly one node. So a node that waits
for its children always finds them, and nothing is left over at the end.
-/

namespace QueryAlgebra.Traversal

variable {ε σ : Type}

/-- What a traversal holds between two tasks. -/
structure Configuration (σ : Type) where
  tasks : List Task
  done : List Node
  held : Nat
  stopped : Bool
  state : σ

namespace Configuration

/-- The configuration before a tree is met. -/
def start (root : Node) (state : σ) : Configuration σ := ⟨[.visit root], [], 1, false, state⟩

/-- Run from a configuration. -/
def run (hooks : Hooks ε σ) (limit : Nat) (config : Configuration σ) : EStateM.Result ε σ Node :=
  Traversal.run hooks limit config.tasks config.done config.held config.stopped config.state

/-- A finished node goes on top of the others, or an error ends the traversal. -/
def finish (tasks : List Task) (done : List Node) (held : Nat) (stopped : Bool) :
    EStateM.Result ε σ Node → Configuration σ ⊕ EStateM.Result ε σ Node
  | .ok node state => .inl ⟨tasks, node :: done, held, stopped, state⟩
  | .error error state => .inr (.error error state)

/-- Treat the first task: the next configuration, or the answer of the traversal. -/
def step (hooks : Hooks ε σ) (limit : Nat) (config : Configuration σ) :
    Configuration σ ⊕ EStateM.Result ε σ Node :=
  match config with
  | ⟨[], [root], _, _, state⟩ => .inr (.ok root state)
  | ⟨[], others, _, _, state⟩ =>
    .inr (.error (hooks.fail (.childMismatch ((others.head?.map Node.kind).getD .nop))) state)
  | ⟨.visit node :: tasks, done, held, true, state⟩ =>
    .inl ⟨tasks, node :: done, held, true, state⟩
  | ⟨.visit node :: tasks, done, held, false, state⟩ =>
    let (decision, state) := hooks.enter node state
    if decision.descends then
      let arity := node.children.length
      if held + arity > limit then .inr (.error (hooks.fail (.stackOverflow limit)) state)
      else
        .inl ⟨node.children.map .visit ++ .build node arity decision.copy :: tasks, done,
          held + arity, decision.shortcut, state⟩
    else if decision.copy then finish tasks done held decision.shortcut (hooks.leave node state)
    else .inl ⟨tasks, node :: done, held, decision.shortcut, state⟩
  | ⟨.build node arity apply :: tasks, done, held, stopped, state⟩ =>
    match node.withChildren? (done.take arity).reverse with
    | none => .inr (.error (hooks.fail (.childMismatch node.kind)) state)
    | some node =>
      if apply then finish tasks (done.drop arity) (held - arity) stopped (hooks.leave node state)
      else .inl ⟨tasks, node :: done.drop arity, held - arity, stopped, state⟩

/-- Running is stepping until there is an answer. -/
theorem run_eq_step (hooks : Hooks ε σ) (limit : Nat) (config : Configuration σ) :
    config.run hooks limit = match config.step hooks limit with
      | .inl next => next.run hooks limit
      | .inr answer => answer := by
  obtain ⟨tasks, done, held, stopped, state⟩ := config
  cases tasks with
  | nil =>
    rcases done with _ | ⟨root, _ | ⟨second, rest⟩⟩ <;> simp [run, step, Traversal.run]
  | cons task tasks =>
    cases task with
    | visit node =>
      cases stopped with
      | true => simp [run, step, Traversal.run]
      | false =>
        simp only [run, step]
        rw [Traversal.run]
        rcases hooks.enter node state with ⟨decision, state⟩
        by_cases descends : decision.descends
        · by_cases above : held + node.children.length > limit <;> simp [descends, above]
        · by_cases copied : decision.copy
          · rcases left : hooks.leave node state with ⟨node, state⟩ | ⟨error, state⟩ <;>
              simp [descends, copied, left, finish]
          · simp [descends, copied]
    | build node arity apply =>
      simp only [run, step]
      rw [Traversal.run]
      cases node.withChildren? (done.take arity).reverse with
      | none => simp
      | some node =>
        cases apply with
        | true =>
          rcases left : hooks.leave node state with ⟨node, state⟩ | ⟨error, state⟩ <;>
            simp [left, finish]
        | false => simp

/-- One configuration comes right after another. -/
def Leads (hooks : Hooks ε σ) (limit : Nat) (config next : Configuration σ) : Prop :=
  config.step hooks limit = .inl next

/-- The traversal comes through a configuration. -/
def Reaches (hooks : Hooks ε σ) (limit : Nat) : Configuration σ → Configuration σ → Prop :=
  Relation.ReflTransGen (Leads hooks limit)

theorem tasks_of_finish {tasks : List Task} {done : List Node} {held : Nat} {stopped : Bool}
    {result : EStateM.Result ε σ Node} {next : Configuration σ}
    (finished : finish tasks done held stopped result = .inl next) : next.tasks = tasks := by
  cases result <;> cases finished
  rfl

/-- Every step makes the tasks lighter. -/
theorem Leads.weight_lt {hooks : Hooks ε σ} {limit : Nat} {config next : Configuration σ}
    (leads : Leads hooks limit config next) :
    Task.totalWeight next.tasks < Task.totalWeight config.tasks := by
  obtain ⟨tasks, done, held, stopped, state⟩ := config
  cases tasks with
  | nil =>
    rcases done with _ | ⟨root, _ | ⟨second, rest⟩⟩ <;> simp [Leads, step] at leads
  | cons task tasks =>
    cases task with
    | visit node =>
      cases stopped with
      | true =>
        cases leads
        exact Task.totalWeight_lt_cons ..
      | false =>
        rcases entered : hooks.enter node state with ⟨decision, state⟩
        simp only [Leads, step, entered] at leads
        split_ifs at leads
        · cases leads
          exact Task.totalWeight_children_lt ..
        · rw [tasks_of_finish leads]
          exact Task.totalWeight_lt_cons ..
        · cases leads
          exact Task.totalWeight_lt_cons ..
    | build node arity apply =>
      simp only [Leads, step] at leads
      cases filled : node.withChildren? (done.take arity).reverse with
      | none => simp [filled] at leads
      | some node =>
        simp only [filled] at leads
        split_ifs at leads
        · rw [tasks_of_finish leads]
          exact Task.totalWeight_lt_cons ..
        · cases leads
          exact Task.totalWeight_lt_cons ..

/-- Every traversal comes to its answer. -/
theorem exists_answer (hooks : Hooks ε σ) (limit : Nat) (config : Configuration σ) :
    ∃ last, Reaches hooks limit config last ∧
      last.step hooks limit = .inr (config.run hooks limit) := by
  cases stepped : config.step hooks limit with
  | inr answer =>
    refine ⟨config, .refl, ?_⟩
    rw [run_eq_step, stepped]
  | inl next =>
    have lighter : Task.totalWeight next.tasks < Task.totalWeight config.tasks :=
      Leads.weight_lt stepped
    obtain ⟨last, reaches, answered⟩ := exists_answer hooks limit next
    refine ⟨last, .head stepped reaches, ?_⟩
    rw [answered, run_eq_step hooks limit config, stepped]
termination_by Task.totalWeight config.tasks

end Configuration

/-- How many finished nodes tasks leave behind when they begin with some number of them, unless a
node waits for more children than there are. -/
def Task.settle : List Task → Nat → Option Nat
  | [], finished => some finished
  | .visit _ :: tasks, finished => settle tasks (finished + 1)
  | .build _ arity _ :: tasks, finished =>
    if arity ≤ finished then settle tasks (finished - arity + 1) else none

@[simp] theorem Task.settle_visits (nodes : List Node) (tasks : List Task) (finished : Nat) :
    settle (nodes.map .visit ++ tasks) finished = settle tasks (finished + nodes.length) := by
  induction nodes generalizing finished with
  | nil => rfl
  | cons node rest ih =>
    simp only [List.map_cons, List.cons_append, settle, ih, List.length_cons]
    congr 1
    omega

namespace Configuration

/-- The entries are counted, one node will be left, and a node waits for as many children as it
has slots. -/
structure Balanced (config : Configuration σ) : Prop where
  held : config.held = config.tasks.length + config.done.length
  settles : Task.settle config.tasks config.done.length = some 1
  arity : ∀ node arity apply, Task.build node arity apply ∈ config.tasks →
    arity = node.children.length

theorem Balanced.start (root : Node) (state : σ) : (Configuration.start root state).Balanced where
  held := rfl
  settles := rfl
  arity := by
    intro node arity apply member
    simp [Configuration.start] at member

/-- A finished node takes the place of the task that it came from. -/
theorem Balanced.finish {tasks : List Task} {done : List Node} {held : Nat} {stopped : Bool}
    {result : EStateM.Result ε σ Node} {next : Configuration σ}
    (counted : held = tasks.length + done.length + 1)
    (settles : Task.settle tasks (done.length + 1) = some 1)
    (arity : ∀ node arity apply, Task.build node arity apply ∈ tasks →
      arity = node.children.length)
    (finished : Configuration.finish tasks done held stopped result = .inl next) :
    next.Balanced := by
  cases result with
  | ok node state =>
    cases finished
    exact ⟨by simp only [List.length_cons]; omega, settles, arity⟩
  | error error state => cases finished

/-- Every step keeps a configuration balanced. -/
theorem Balanced.step {hooks : Hooks ε σ} {limit : Nat} {config next : Configuration σ}
    (balanced : config.Balanced) (leads : Leads hooks limit config next) : next.Balanced := by
  obtain ⟨tasks, done, held, stopped, state⟩ := config
  obtain ⟨counted, settles, arities⟩ := balanced
  dsimp only at counted settles arities
  cases tasks with
  | nil =>
    rcases done with _ | ⟨root, _ | ⟨second, rest⟩⟩ <;>
      simp [Leads, Configuration.step] at leads
  | cons task tasks =>
    have kept : ∀ node arity apply, Task.build node arity apply ∈ tasks →
        arity = node.children.length :=
      fun node arity apply member => arities node arity apply (List.mem_cons_of_mem _ member)
    cases task with
    | visit node =>
      have one : held = tasks.length + done.length + 1 := by
        simp only [List.length_cons] at counted
        omega
      cases stopped with
      | true =>
        cases leads
        exact ⟨by simp only [List.length_cons]; omega, settles, kept⟩
      | false =>
        rcases entered : hooks.enter node state with ⟨decision, state⟩
        simp only [Leads, Configuration.step, entered] at leads
        split_ifs at leads with descends above copied
        · cases leads
          refine ⟨?_, ?_, ?_⟩
          · simp only [List.length_append, List.length_map, List.length_cons]
            omega
          · simpa [Task.settle] using settles
          · intro other arity apply member
            rcases List.mem_append.mp member with visited | member
            · simp at visited
            · rcases List.mem_cons.mp member with same | member
              · cases same
                rfl
              · exact kept other arity apply member
        · exact Balanced.finish one settles kept leads
        · cases leads
          exact ⟨by simp only [List.length_cons]; omega, settles, kept⟩
    | build node arity apply =>
      have enough : arity ≤ done.length := by
        by_contra short
        simp [Task.settle, short] at settles
      have settles : Task.settle tasks (done.length - arity + 1) = some 1 := by
        simpa [Task.settle, enough] using settles
      simp only [List.length_cons] at counted
      simp only [Leads, Configuration.step] at leads
      have one : held - arity = tasks.length + (done.drop arity).length + 1 := by
        simp only [List.length_drop]
        omega
      have left : Task.settle tasks ((done.drop arity).length + 1) = some 1 := by
        simpa only [List.length_drop] using settles
      cases filled : node.withChildren? (done.take arity).reverse with
      | none => simp [filled] at leads
      | some node =>
        simp only [filled] at leads
        split_ifs at leads with applied
        · exact Balanced.finish one left kept leads
        · cases leads
          exact ⟨by simp only [List.length_cons]; omega, left, kept⟩

/-- Every configuration that a traversal comes through is balanced. -/
theorem Balanced.of_reaches {hooks : Hooks ε σ} {limit : Nat} {root : Node} {state : σ}
    {config : Configuration σ} (reached : Reaches hooks limit (.start root state) config) :
    config.Balanced := by
  induction reached with
  | refl => exact .start root state
  | tail _ leads ih => exact ih.step leads

/-- The failures of the stack itself are out of reach: the finished nodes suffice for the node that
waits for its children, and one node is left when no task is. -/
structure Settled (config : Configuration σ) : Prop where
  held : config.held = config.tasks.length + config.done.length
  children : ∀ node arity apply tasks, config.tasks = .build node arity apply :: tasks →
    (config.done.take arity).length = node.children.length
  answer : config.tasks = [] → ∃ root, config.done = [root]

theorem Balanced.settled {config : Configuration σ} (balanced : config.Balanced) :
    config.Settled where
  held := balanced.held
  children := by
    intro node arity apply tasks first
    have settles := balanced.settles
    have slots := balanced.arity node arity apply (by rw [first]; exact List.mem_cons_self ..)
    have enough : arity ≤ config.done.length := by
      by_contra short
      simp [first, Task.settle, short] at settles
    rw [List.length_take, Nat.min_eq_left enough, slots]
  answer := by
    intro settled
    have settles := balanced.settles
    rw [settled] at settles
    exact List.length_eq_one_iff.mp (Option.some.inj settles)

end Configuration

end QueryAlgebra.Traversal
