import WhenClause.Editor
import WhenClause.Proofs.Tree.Change

/-!
# What an editor announces

Calls of an editor as data, so that a session is a list of them. Of the calls that add, remove or
turn something, those and only those are announced that leave a different tree behind, and one that
reports failure leaves everything as it was. An update is announced whenever there is such a
condition; looking at a rule is never announced.
-/

namespace WhenClause.Editor

inductive Call where
  | ensureRoot
  | view
  | toggle (g : GroupId)
  | addGroup (parent : Tree.Parent)
  | removeGroup (g : GroupId)
  | addCondition (parent : GroupId)
  | removeCondition (c : ConditionId)
  | updateCondition (c : ConditionId) (f : Condition → Condition)

variable {σ : Type}

def reported {α : Type} (result : Option α × Editor σ) : Bool × Editor σ :=
  (result.1.isSome, result.2)

def call (e : Editor σ) : Call → Bool × Editor σ
  | .ensureRoot => (false, e.ensureRoot.2)
  | .view => (false, e.view.2)
  | .toggle g => reported (e.toggle g)
  | .addGroup parent => reported (e.addGroup parent)
  | .removeGroup g => reported (e.removeGroup g)
  | .addCondition parent => reported (e.addCondition parent)
  | .removeCondition c => reported (e.removeCondition c)
  | .updateCondition c f => reported (e.updateCondition c f)

def run (e : Editor σ) (calls : List Call) : Editor σ := calls.foldl (fun e c => (e.call c).2) e

def successes : Editor σ → List Call → Nat
  | _, [] => 0
  | e, c :: calls => (e.call c).1.toNat + successes (e.call c).2 calls

def Call.edit (config : Config) : Call → Edit
  | .ensureRoot | .view => .ensureRoot
  | .toggle g => .toggle g
  | .addGroup parent => .addGroup parent config.groupTemplate
  | .removeGroup g => .removeGroup g
  | .addCondition parent => .addCondition parent config.conditionTemplate
  | .removeCondition c => .removeCondition c
  | .updateCondition c f => .updateCondition c f

/-- A success is told to the listener, first that the rule changed and then that it has to be drawn;
after a failure all is as it was. -/
structure Announces (e : Editor σ) (success : Bool) (e' : Editor σ) : Prop where
  heard : success = true →
    e'.heard = e.listener.hear .renderRequested (e.listener.hear .changed e.heard)
  unchanged : success = false → e' = e
  name : e'.rule.name = e.rule.name
  config : e'.config = e.config
  listener : e'.listener = e.listener

structure Looks (e e' : Editor σ) : Prop where
  heard : e'.heard = e.heard
  name : e'.rule.name = e.rule.name
  config : e'.config = e.config
  listener : e'.listener = e.listener
  rooted : e.rule.tree.root = none → ∃ g, e.rule.tree.Rooted e'.rule.tree g
  unchanged : e.rule.tree.root ≠ none → e' = e

/-- What each kind of call may be relied on to do. -/
def Behaves (e : Editor σ) : Call → Prop
  | .ensureRoot => e.Looks (e.call .ensureRoot).2
  | .view => e.Looks (e.call .view).2
  | .updateCondition c f =>
    let (success, e') := e.call (.updateCondition c f)
    e.Announces success e' ∧ (success = true ↔ e.rule.tree.containsCondition c = true) ∧
      e.rule.tree.Updated e'.rule.tree c f
  | c =>
    let (success, e') := e.call c
    e.Announces success e' ∧ (success = true ↔ ¬ e.rule.tree.Same e'.rule.tree)

variable {e : Editor σ} {whole : Option Subtree}

/-! ## One call -/

theorem announces_commit {α : Type} (e : Editor σ) (outcome : Option (α × Tree)) :
    e.Announces (e.commit outcome).1.isSome (e.commit outcome).2 := by
  cases outcome with
  | none => exact ⟨nofun, fun _ => rfl, rfl, rfl, rfl⟩
  | some result => exact ⟨fun _ => rfl, nofun, rfl, rfl, rfl⟩

theorem commit_exact {α : Type} {outcome : Option (α × Tree)}
    (h : ∀ a t', outcome = some (a, t') → ¬ e.rule.tree.Same t') :
    e.Announces (e.commit outcome).1.isSome (e.commit outcome).2 ∧
      ((e.commit outcome).1.isSome = true ↔
        ¬ e.rule.tree.Same (e.commit outcome).2.rule.tree) := by
  refine ⟨announces_commit e outcome, ?_⟩
  cases outcome with
  | none => exact ⟨nofun, fun hchanged => absurd (Tree.Same.refl _) hchanged⟩
  | some result => exact ⟨fun _ => h result.1 result.2 rfl, fun _ => rfl⟩

theorem looks_ensureRoot (e : Editor σ) : e.Looks e.ensureRoot.2 where
  heard := rfl
  name := rfl
  config := rfl
  listener := rfl
  rooted hroot := ⟨_, Tree.rooted_ensureRoot hroot⟩
  unchanged hroot := by
    have htree : e.ensureRoot.2 = e.withTree e.rule.tree.ensureRoot.2 := rfl
    rw [htree, Tree.ensureRoot_eq_self hroot]
    rfl

theorem tree_commit {α : Type} (e : Editor σ) (outcome : Option (α × Tree)) :
    (e.commit outcome).2.rule.tree = (outcome.map Prod.snd).getD e.rule.tree := by
  cases outcome <;> rfl

theorem isSome_commit {α : Type} (e : Editor σ) (outcome : Option (α × Tree)) :
    (e.commit outcome).1.isSome = outcome.isSome := by
  cases outcome <;> rfl

theorem map_unit (outcome : Option Tree) : (outcome.map ((), ·)).map Prod.snd = outcome := by
  cases outcome <;> rfl

theorem updateCondition_exact (e : Editor σ) (c : ConditionId) (f : Condition → Condition) :
    e.Behaves (.updateCondition c f) := by
  let outcome := (e.rule.tree.updateCondition c f).map ((), ·)
  have hsuccess : (e.commit outcome).1.isSome = e.rule.tree.containsCondition c := by
    rw [isSome_commit, Option.isSome_map, Tree.isSome_updateCondition]
  have htree : (e.commit outcome).2.rule.tree =
      (e.rule.tree.updateCondition c f).getD e.rule.tree := by
    rw [tree_commit, map_unit]
  have hupdated : e.rule.tree.Updated (e.commit outcome).2.rule.tree c f :=
    htree ▸ Tree.updated_updateCondition e.rule.tree c f
  exact ⟨announces_commit e outcome, Bool.eq_iff_iff.1 hsuccess, hupdated⟩

theorem behaves (h : e.rule.tree.Shape whole) (c : Call) : e.Behaves c := by
  cases c with
  | ensureRoot | view => exact looks_ensureRoot e
  | toggle g => exact commit_exact fun _ _ he => h.not_same_toggle he
  | addGroup parent => exact commit_exact fun _ _ he => h.not_same_addGroup he
  | addCondition parent => exact commit_exact fun _ _ he => h.not_same_addCondition he
  | removeGroup g =>
    refine commit_exact fun _ t' he => ?_
    obtain ⟨_, he, heq⟩ := Option.map_eq_some_iff.1 he
    cases heq
    exact h.not_same_removeGroup he
  | removeCondition c =>
    refine commit_exact fun _ t' he => ?_
    obtain ⟨_, he, heq⟩ := Option.map_eq_some_iff.1 he
    cases heq
    exact h.not_same_removeCondition he
  | updateCondition c f => exact updateCondition_exact e c f

/-! ## A session -/

theorem tree_call (e : Editor σ) (c : Call) :
    (e.call c).2.rule.tree = e.rule.tree.edit (c.edit e.config) := by
  cases c with
  | ensureRoot | view => rfl
  | toggle | addGroup | addCondition => exact tree_commit e _
  | removeGroup | removeCondition | updateCondition =>
    exact (tree_commit e _).trans (congrArg (Option.getD · e.rule.tree) (map_unit _))

theorem reachable_run {e : Editor σ} (h : e.rule.tree.Reachable) (calls : List Call) :
    (e.run calls).rule.tree.Reachable := by
  induction calls generalizing e with
  | nil => exact h
  | cons c calls ih =>
    apply ih
    rw [tree_call]
    exact h.edit _

theorem heard_call (e : Editor σ) (c : Call) :
    (e.call c).2.listener = e.listener ∧
      (e.call c).2.heard = if (e.call c).1 then e.announce.heard else e.heard := by
  have hcommit : ∀ {α : Type} (outcome : Option (α × Tree)),
      (e.commit outcome).2.listener = e.listener ∧ (e.commit outcome).2.heard =
        if (e.commit outcome).1.isSome then e.announce.heard else e.heard := by
    rintro α (_ | _) <;> exact ⟨rfl, rfl⟩
  cases c with
  | ensureRoot | view => exact ⟨rfl, rfl⟩
  | toggle | addGroup | addCondition | removeGroup | removeCondition | updateCondition =>
    exact hcommit _

theorem heard_run_tally {e : Editor Tally} (h : e.listener = Tally.listener) (calls : List Call) :
    (e.run calls).heard = ⟨e.heard.changes + e.successes calls,
      e.heard.renders + e.successes calls⟩ := by
  induction calls generalizing e with
  | nil => rfl
  | cons c calls ih =>
    obtain ⟨hlistener, hheard⟩ := e.heard_call c
    have hrun : e.run (c :: calls) = (e.call c).2.run calls := rfl
    rw [hrun, ih (hlistener.trans h), hheard, successes]
    cases (e.call c).1 with
    | false => simp
    | true =>
      simp [announce, announcement, h, Tally.listener, Tally.add]
      omega

/-- In every session from a reachable rule each call behaves, and a tally of the events counts the
successes twice. -/
theorem session_exact {r : Rule} (h : r.tree.Reachable) (config : Config) (calls : List Call) :
    (∀ (σ : Type) (listener : Listener σ) (heard : σ) (c : Call),
      ((⟨r, config, listener, heard⟩ : Editor σ).run calls).Behaves c) ∧
    let e : Editor Tally := ⟨r, config, Tally.listener, .zero⟩
    (e.run calls).heard = ⟨e.successes calls, e.successes calls⟩ := by
  constructor
  · intro σ listener heard c
    let e : Editor σ := ⟨r, config, listener, heard⟩
    obtain ⟨_, hshape⟩ := (reachable_run (e := e) h calls).shape
    exact behaves hshape c
  · intro e
    simpa [e, Tally.zero] using heard_run_tally (e := e) rfl calls

/-- A group is removed and then turned, which fails; an update that changes nothing is announced. -/
theorem session_exact_stale_handle :
    let t := Tree.ofGroup ⟨none, [.empty], [⟨some .or, [.empty], []⟩]⟩
    let e : Editor Tally := ⟨⟨"credit", t⟩, {}, Tally.listener, .zero⟩
    let calls : List Call := [.removeGroup ⟨⟨0, 0⟩⟩, .toggle ⟨⟨0, 0⟩⟩, .view,
      .updateCondition ⟨⟨0, 0⟩⟩ id]
    t.Reachable ∧ e.successes calls = 2 ∧ (e.run calls).heard = ⟨2, 2⟩ ∧
      (e.run calls).Behaves (.addGroup .rule) := by
  have hreached : ∀ g, (Tree.ofGroup g).Reachable := fun g => ⟨_, [], .ofGroup g, rfl⟩
  have hsession := fun g => session_exact (r := ⟨"credit", .ofGroup g⟩) (hreached g) {}
  refine ⟨hreached _, by decide, ?_, ?_⟩
  · exact (hsession _ _).2.trans (by decide)
  · exact (hsession _ _).1 Tally Tally.listener .zero _

end WhenClause.Editor
