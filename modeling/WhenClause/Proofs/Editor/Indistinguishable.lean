import WhenClause.Proofs.Editor.Move
import WhenClause.Proofs.Snapshot.Canonical

/-!
# Rules that cannot be told apart

Two rules with the same name and the same value may have come about in different ways, and then
their nodes have different handles. Nobody who edits them by position finds out: the same moves are
reported the same, are announced the same, and leave rules that again have the same name and value.
-/

namespace WhenClause.Editor

open Snapshot (Digest)

variable {σ : Type} {e e' : Editor σ}

/-- What can be seen of two editors now, and what comes of any next move. -/
structure Agrees (e e' : Editor σ) : Prop where
  name : e.rule.name = e'.rule.name
  rootGroup : e.rule.tree.rootGroup? = e'.rule.tree.rootGroup?
  text : e.rule.text = e'.rule.text
  encode : ∀ digest, e.rule.encode digest = e'.rule.encode digest
  view : ∀ config, e.rule.tree.placedView? config = e'.rule.tree.placedView? config
  heard : e.heard = e'.heard
  report : ∀ m, (e.move m).1 = (e'.move m).1
  listed : ∀ m, (e.move m).1.listed = true

structure Twins (e e' : Editor σ) : Prop where
  reachable : e.rule.tree.Reachable
  reachable' : e'.rule.tree.Reachable
  name : e.rule.name = e'.rule.name
  value : e.rule.tree.rootGroup? = e'.rule.tree.rootGroup?
  config : e.config = e'.config
  listener : e.listener = e'.listener
  heard : e.heard = e'.heard

structure Keeps (e : Editor σ) (result : Report × Editor σ) : Prop where
  name : result.2.rule.name = e.rule.name
  config : result.2.config = e.config
  listener : result.2.listener = e.listener
  heard : result.2.heard = if result.1.announced then e.announce.heard else e.heard

theorem keeps_commit {α : Type} (edited : Option (α × Tree)) {report : α → Report}
    (hreport : ∀ a, (report a).announced = true) :
    e.Keeps (reportOf (e.commit edited) report) := by
  cases edited with
  | none => exact ⟨rfl, rfl, rfl, rfl⟩
  | some result => exact ⟨rfl, rfl, rfl, (if_pos (hreport result.1)).symm⟩

theorem keeps_perform (e : Editor σ) (c : Call) : e.Keeps (e.perform c) := by
  cases c with
  | ensureRoot | view => exact ⟨rfl, rfl, rfl, rfl⟩
  | toggle | addGroup | removeGroup | addCondition | removeCondition | updateCondition =>
    exact keeps_commit _ fun _ => rfl

theorem keeps_move (e : Editor σ) (m : Move) : e.Keeps (e.move m) := by
  unfold move
  split
  · exact keeps_perform e _
  · exact ⟨rfl, rfl, rfl, rfl⟩

theorem snd_perform (e : Editor σ) (c : Call) : (e.perform c).2 = (e.call c).2 := by
  cases c <;> rfl

theorem reachable_move (h : e.rule.tree.Reachable) (m : Move) :
    (e.move m).2.rule.tree.Reachable := by
  unfold move
  split
  · rw [snd_perform, tree_call]
    exact h.edit _
  · exact h

theorem Twins.outcome_eq (h : e.Twins e') (m : Move) : outcome (e.move m) = outcome (e'.move m) := by
  obtain ⟨_, hshape⟩ := h.reachable.shape
  obtain ⟨_, hshape'⟩ := h.reachable'.shape
  rw [outcome_move hshape, outcome_move hshape', h.config, h.value]

theorem Twins.move (h : e.Twins e') (m : Move) : (e.move m).2.Twins (e'.move m).2 := by
  obtain ⟨hreport, hvalue⟩ := Prod.mk.inj (h.outcome_eq m)
  have hkeeps := keeps_move e m
  have hkeeps' := keeps_move e' m
  have hannounce : e.announce.heard = e'.announce.heard := by
    simp only [announce, h.listener, h.heard]
  constructor
  case reachable => exact reachable_move h.reachable m
  case reachable' => exact reachable_move h.reachable' m
  case name => rw [hkeeps.name, hkeeps'.name, h.name]
  case value => exact hvalue
  case config => rw [hkeeps.config, hkeeps'.config, h.config]
  case listener => rw [hkeeps.listener, hkeeps'.listener, h.listener]
  case heard => rw [hkeeps.heard, hkeeps'.heard, hreport, hannounce, h.heard]

theorem Twins.moves (h : e.Twins e') (ms : List Move) : (e.moves ms).Twins (e'.moves ms) := by
  induction ms generalizing e e' with
  | nil => exact h
  | cons m ms ih => exact ih (h.move m)

theorem placedView?_none {t : Tree} (h : t.Shape none) (config : Config) :
    t.placedView? config = none := by
  simp [Tree.placedView?, Tree.view?, h.rootSubtree?_eq]

theorem Twins.placedView?_eq (h : e.Twins e') (config : Config) :
    e.rule.tree.placedView? config = e'.rule.tree.placedView? config := by
  obtain ⟨whole, hshape⟩ := h.reachable.shape
  obtain ⟨whole', hshape'⟩ := h.reachable'.shape
  have hvalue := h.value
  cases whole with
  | none =>
    cases whole' with
    | none => rw [placedView?_none hshape, placedView?_none hshape']
    | some s' =>
      rw [hshape.rootGroup?_none, hshape'.rootGroup?_eq] at hvalue
      cases hvalue
  | some s =>
    cases whole' with
    | none =>
      rw [hshape.rootGroup?_eq, hshape'.rootGroup?_none] at hvalue
      cases hvalue
    | some s' => exact Tree.placedView?_eq hshape hshape' hvalue config

theorem Twins.agrees (h : e.Twins e') : e.Agrees e' where
  name := h.name
  rootGroup := h.value
  text := by rw [Rule.text, Rule.text, h.name, h.value]
  encode digest :=
    congrArg (Snapshot.encode digest)
      ((Rule.toPayload_eq_iff h.reachable h.reachable').2 ⟨h.name, h.value⟩)
  view := h.placedView?_eq
  heard := h.heard
  report m := (Prod.mk.inj (h.outcome_eq m)).1
  listed m := by
    obtain ⟨_, hshape⟩ := h.reachable.shape
    have hreport := congrArg Prod.fst (outcome_move hshape m)
    exact hreport ▸ listed_plain e.config _ m

end WhenClause.Editor

namespace WhenClause.Rule

open Snapshot (Digest capacity)

variable {r r' : Rule}

/-- Editors of the two rules agree after the same moves, whatever these are, however the editors
are configured and whoever listens. -/
def Indistinguishable (r r' : Rule) : Prop :=
  ∀ (σ : Type) (config : Config) (listener : Listener σ) (heard : σ) (ms : List Editor.Move),
    ((⟨r, config, listener, heard⟩ : Editor σ).moves ms).Agrees
      ((⟨r', config, listener, heard⟩ : Editor σ).moves ms)

theorem indistinguishable_of_value (h : r.tree.Reachable) (h' : r'.tree.Reachable)
    (hname : r.name = r'.name) (hvalue : r.tree.rootGroup? = r'.tree.rootGroup?) :
    r.Indistinguishable r' := by
  intro σ config listener heard ms
  have htwins : (⟨r, config, listener, heard⟩ : Editor σ).Twins ⟨r', config, listener, heard⟩ :=
    ⟨h, h', hname, hvalue, rfl, rfl, rfl⟩
  exact (htwins.moves ms).agrees

/-- A rule that was edited in any way cannot be told from one with the same name and value, and so
neither from what its snapshot loads as nor from one that is made of its value. -/
theorem indistinguishable (h : r.tree.Reachable) :
    (∀ r' : Rule, r'.tree.Reachable → r.name = r'.name →
      r.tree.rootGroup? = r'.tree.rootGroup? → r.Indistinguishable r') ∧
    (∀ digest, r.toPayload.write.length < 0x100000000 →
      ∃ r', decode digest (r.encode digest) = .ok r' ∧ r.Indistinguishable r') ∧
    ∀ g, r.tree.rootGroup? = some g → r.Indistinguishable (r.withGroup g) := by
  refine ⟨fun r' h' => indistinguishable_of_value h h', fun digest hshort => ?_, fun g hg => ?_⟩
  · obtain ⟨r', hdecode, halike⟩ := exists_decode_encode h digest hshort
    have h' : r'.tree.Reachable := Tree.Initial.reachable (.decode hdecode)
    exact ⟨r', hdecode, indistinguishable_of_value h h' halike.name.symm halike.group.symm⟩
  · have h' : (r.withGroup g).tree.Reachable := Tree.Initial.reachable (.withGroup r g)
    refine indistinguishable_of_value h h' rfl ?_
    exact hg.trans (Tree.rootGroup?_ofGroup g).symm

/-- The nested group has the slot of one that was removed, so it has a handle of its own. -/
theorem indistinguishable_reused_slot :
    let g : Group := ⟨some .or, [.empty], [.empty]⟩
    let t := (Tree.ofGroup ⟨none, [.empty], []⟩).run [.toggle ⟨⟨0, 0⟩⟩,
      .addGroup (.group ⟨⟨0, 0⟩⟩) none, .removeGroup ⟨⟨1, 0⟩⟩, .addGroup (.group ⟨⟨0, 0⟩⟩) none]
    let r : Rule := ⟨"credit", t⟩
    t.Reachable ∧ t.rootGroup? = some g ∧ t.groupIds ≠ (r.withGroup g).tree.groupIds ∧
      r.Indistinguishable (r.withGroup g) ∧
        ∃ r', decode Blake3.digest (r.encode Blake3.digest) = .ok r' ∧ r.Indistinguishable r' := by
  intro g t r
  have hreached : t.Reachable := ⟨_, _, .ofGroup _, rfl⟩
  have hvalue : t.rootGroup? = some g := rfl
  obtain ⟨_, hsaved, hmade⟩ := indistinguishable (r := r) hreached
  exact ⟨hreached, hvalue, by decide +kernel, hmade g hvalue, hsaved _ (by decide +kernel)⟩

end WhenClause.Rule
