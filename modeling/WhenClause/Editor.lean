import WhenClause.Rule
import WhenClause.View

/-!
# Editors

An editor applies edits to a rule and tells a listener of each that changed it. Edits that find
nothing to act on tell nobody. New nodes are copied from the templates of the configuration.
Nothing that only looks at the rule is announced, and neither is the empty root that a rule
without one is given to be looked at.
-/

namespace WhenClause

inductive Event where
  | changed
  | renderRequested
  deriving DecidableEq, Repr

structure Listener (σ : Type) where
  hear : Event → σ → σ

structure Tally where
  changes : Nat
  renders : Nat
  deriving DecidableEq, Repr, Inhabited

namespace Tally

def zero : Tally := ⟨0, 0⟩

def add : Event → Tally → Tally
  | .changed, n => { n with changes := n.changes + 1 }
  | .renderRequested, n => { n with renders := n.renders + 1 }

def listener : Listener Tally := ⟨add⟩

def changesOnly : Listener Tally where
  hear
    | .changed, n => add .changed n
    | .renderRequested, n => n

end Tally

structure Editor (σ : Type) where
  rule : Rule
  config : Config
  listener : Listener σ
  heard : σ

namespace Editor

variable {σ : Type}

def announcement : List Event := [.changed, .renderRequested]

def announce (e : Editor σ) : Editor σ :=
  { e with heard := announcement.foldl (fun heard event => e.listener.hear event heard) e.heard }

def withTree (e : Editor σ) (t : Tree) : Editor σ :=
  { e with rule := { e.rule with tree := t } }

def commit {α : Type} (e : Editor σ) : Option (α × Tree) → Option α × Editor σ
  | some (a, t) => (some a, (e.withTree t).announce)
  | none => (none, e)

def ensureRoot (e : Editor σ) : GroupId × Editor σ :=
  let (g, t) := e.rule.tree.ensureRoot
  (g, e.withTree t)

def toggle (e : Editor σ) (g : GroupId) : Option Operator × Editor σ :=
  e.commit (e.rule.tree.toggle g)

def addGroup (e : Editor σ) (parent : Tree.Parent) : Option GroupId × Editor σ :=
  e.commit (e.rule.tree.addGroup parent e.config.groupTemplate)

def removeGroup (e : Editor σ) (g : GroupId) : Option Unit × Editor σ :=
  e.commit ((e.rule.tree.removeGroup g).map ((), ·))

def addCondition (e : Editor σ) (parent : GroupId) : Option ConditionId × Editor σ :=
  e.commit (e.rule.tree.addCondition parent e.config.conditionTemplate)

def removeCondition (e : Editor σ) (c : ConditionId) : Option Unit × Editor σ :=
  e.commit ((e.rule.tree.removeCondition c).map ((), ·))

/-- Edits a condition in place. Announced whenever there is such a condition, even if the edit
leaves it as it is. -/
def updateCondition (e : Editor σ) (c : ConditionId) (f : Condition → Condition) :
    Option Unit × Editor σ :=
  e.commit ((e.rule.tree.updateCondition c f).map ((), ·))

def view (e : Editor σ) : Option GroupView × Editor σ :=
  let (_, e) := e.ensureRoot
  (e.rule.tree.view? e.config, e)

end Editor

end WhenClause
