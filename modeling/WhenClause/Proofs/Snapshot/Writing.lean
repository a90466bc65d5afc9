import WhenClause.Proofs.Condition.Listing
import WhenClause.Proofs.Snapshot.Wire

/-!
# What is written is in the wire format

Everything is written in one of its forms, as long as all lengths in it are numbers of sixty-four
bits and there can be a buffer for each of its texts, as it is in any machine with words of that
size. No list and no text is longer than the bytes that it is written as, so it is enough that the
bytes are not too many.
-/

namespace WhenClause.Snapshot

open Wire

theorem number_varint {n : Nat} (h : n < capacity 8) : Number true n (varint n) := by
  unfold varint
  split
  · exact .one ‹_›
  split
  · exact .two ‹_›
  split
  · exact .four ‹_›
  · exact .eight h rfl

theorem number_varint_of_lt {wide : Bool} {n : Nat} (h : n < 251) : Number wide n (varint n) := by
  rw [varint, if_pos h]
  exact .one h

theorem length_varint_pos (n : Nat) : 0 < (varint n).length := by
  unfold varint
  split
  · exact Nat.one_pos
  split
  · exact Nat.succ_pos _
  split <;> exact Nat.succ_pos _

theorem zigzag_lt_capacity (n : Int64) : zigzag n.toInt < capacity 8 := by
  have hlow := n.le_toInt
  have hhigh := n.toInt_lt
  have hpow : capacity 8 = 2 ^ 64 := by decide
  unfold zigzag
  split <;> omega

/-! ## What fits -/

section

variable (limit : Nat)

def TextFits (s : String) : Prop := (Utf8.encode s.toList).length < limit

def ValueFits : Value → Prop
  | .str s => TextFits limit s
  | .int _ | .float _ | .bool _ => True

structure ConditionFits (c : Condition) : Prop where
  count : c.attributes.length < capacity 8
  keys : ∀ a ∈ c.attributes, TextFits limit a.1
  values : ∀ a ∈ c.attributes, ValueFits limit a.2

structure GroupFits (g : Group) : Prop where
  items : g.items.length < capacity 8
  groups : g.groups.length < capacity 8
  conditions : ∀ c ∈ g.items, ConditionFits limit c

structure Payload.FitsWithin (p : Payload) : Prop where
  groupCount : p.groupCount < capacity 8
  conditionCount : p.conditionCount < capacity 8
  name : TextFits limit p.name
  group : ∀ g ∈ p.group, ∀ x ∈ g.preorder, GroupFits limit x

end

/-- Every number that is written of lengths and counts is one of sixty-four bits. -/
def Payload.Fits (p : Payload) : Prop := p.FitsWithin (capacity 8)

/-- All numbers fit, and there can be a buffer for each text. -/
def Payload.Held (p : Payload) : Prop := p.FitsWithin (largestBuffer + 1)

theorem groupFits_nested {limit : Nat} {operator : Option Operator} {items : List Condition}
    {groups : List Group}
    (h : ∀ x ∈ (Group.mk operator items groups).preorder, GroupFits limit x) :
    GroupFits limit ⟨operator, items, groups⟩ ∧
      ∀ g ∈ groups, ∀ x ∈ g.preorder, GroupFits limit x := by
  rw [Group.preorder_eq, Group.preorderAll_eq_flatMap] at h
  exact ⟨h _ (List.mem_cons_self ..),
    fun g hg x hx => h x (List.mem_cons_of_mem _ (List.mem_flatMap.2 ⟨g, hg, hx⟩))⟩

theorem largestBuffer_lt_capacity : largestBuffer + 1 ≤ capacity 8 := by decide

theorem text_writeText {s : String} (h : TextFits (largestBuffer + 1) s) : Text s (writeText s) :=
  .mk (number_varint (Nat.lt_of_lt_of_le h largestBuffer_lt_capacity)) (Nat.le_of_lt_succ h)

theorem valueForm_writeValue {v : Value} (h : ValueFits (largestBuffer + 1) v) :
    ValueForm v (writeValue v) := by
  cases v with
  | int n => exact .int (number_varint_of_lt (by decide)) (number_varint (zigzag_lt_capacity n))
  | float x => exact .float (number_varint_of_lt (by decide)) x
  | bool b => exact .bool (number_varint_of_lt (by decide)) b
  | str s => exact .str (number_varint_of_lt (by decide)) (text_writeText h)

section

variable {α : Type} {form : α → Bytes → Prop} {write : α → Bytes} {as : List α}

theorem length_le_flatMap (h : ∀ a ∈ as, 0 < (write a).length) :
    as.length ≤ (as.flatMap write).length := by
  induction as with
  | nil => exact Nat.le_refl 0
  | cons a as ih =>
    have ha := h a (List.mem_cons_self ..)
    have has := ih fun b hb => h b (List.mem_cons_of_mem _ hb)
    rw [List.flatMap_cons, List.length_append, List.length_cons]
    omega

theorem length_le_flatMap_of_mem {a : α} (h : a ∈ as) :
    (write a).length ≤ (as.flatMap write).length := by
  obtain ⟨left, right, rfl⟩ := List.append_of_mem h
  simp only [List.flatMap_append, List.flatMap_cons, List.length_append]
  omega

theorem sequence_flatMap (h : ∀ a ∈ as, form a (write a)) :
    Sequence form as (as.flatMap write) := by
  induction as with
  | nil => exact .nil
  | cons a as ih =>
    exact .cons (h a (List.mem_cons_self ..)) (ih fun b hb => h b (List.mem_cons_of_mem _ hb))

end

theorem length_writeAttribute_pos (a : String × Value) : 0 < (writeAttribute a).length := by
  have := length_varint_pos (Utf8.encode a.1.toList).length
  simp only [writeAttribute, writeText, List.length_append]
  omega

theorem length_writeCondition_pos (c : Condition) : 0 < (writeCondition c).length := by
  have := length_varint_pos c.attributes.length
  simp only [writeCondition, List.length_append]
  omega

theorem length_writeOperator_pos (o : Option Operator) : 0 < (writeOperator o).length := by
  rcases o with _ | _ | _ <;> exact Nat.succ_pos _

theorem writeGroup_eq (g : Group) :
    writeGroup g = writeOperator g.operator ++
      (varint g.items.length ++ g.items.flatMap writeCondition) ++
        (varint g.groups.length ++ g.groups.flatMap writeGroup) := by
  cases g
  rw [writeGroup, writeGroups_eq_flatMap]

theorem length_writeGroup_pos (g : Group) : 0 < (writeGroup g).length := by
  have := length_writeOperator_pos g.operator
  simp only [writeGroup_eq, List.length_append]
  omega

theorem conditionForm_writeCondition {c : Condition} (h : ConditionFits (largestBuffer + 1) c) :
    ConditionForm c (writeCondition c) := by
  have hall : Sequence AttributeForm c.attributes (c.attributes.flatMap writeAttribute) :=
    sequence_flatMap fun a ha =>
      .mk (text_writeText (h.keys a ha)) (valueForm_writeValue (h.values a ha))
  exact .mk (.mk (number_varint h.count) hall) (Condition.ofList_eq_iff.1 c.ofList_attributes.symm)

theorem optional_writeOperator (o : Option Operator) :
    Optional OperatorForm o (writeOperator o) := by
  rcases o with _ | _ | _
  · exact .none
  · exact .some (.and (number_varint_of_lt (by decide)))
  · exact .some (.or (number_varint_of_lt (by decide)))

theorem groupForm_writeGroup {g : Group}
    (h : ∀ x ∈ g.preorder, GroupFits (largestBuffer + 1) x) :
    GroupForm g (writeGroup g) := by
  induction g using Group.induct with
  | node operator items groups ih =>
    obtain ⟨htop, hbelow⟩ := groupFits_nested h
    rw [writeGroup_eq, List.append_assoc]
    refine .mk (optional_writeOperator operator) (.mk (number_varint htop.items) ?_)
      (number_varint htop.groups) (sequence_flatMap fun g hg => ih g hg (hbelow g hg))
    exact sequence_flatMap fun c hc => conditionForm_writeCondition (htop.conditions c hc)

def writeWhole : Option Group → Bytes
  | none => [0]
  | some g => 1 :: writeGroup g

theorem write_eq (p : Payload) :
    p.write = varint p.groupCount ++ (varint p.conditionCount ++
      (writeText p.name ++ writeWhole p.group)) := by
  obtain ⟨_, _, _, _ | _⟩ := p <;> simp only [Payload.write, writeWhole, List.append_assoc]

theorem payloadForm_write {p : Payload} (h : p.Held) : PayloadForm p p.write := by
  rw [write_eq]
  refine .mk (number_varint h.groupCount) (number_varint h.conditionCount) (text_writeText h.name)
    ?_
  cases hg : p.group with
  | none => exact .none
  | some g => exact .some (groupForm_writeGroup (h.group g hg))

/-! ## What is not too long fits -/

section

variable {limit : Nat}

theorem textFits_of_length {s : String} (h : (writeText s).length < limit) : TextFits limit s := by
  simp only [writeText, List.length_append] at h
  unfold TextFits
  omega

theorem valueFits_of_length {v : Value} (h : (writeValue v).length < limit) :
    ValueFits limit v := by
  cases v with
  | str s =>
    simp only [writeValue, List.length_append] at h
    exact textFits_of_length (by omega)
  | int | float | bool => trivial

variable (hlimit : limit ≤ capacity 8)

include hlimit

theorem conditionFits_of_length {c : Condition} (h : (writeCondition c).length < limit) :
    ConditionFits limit c := by
  simp only [writeCondition, List.length_append] at h
  have hcount : c.attributes.length ≤ (c.attributes.flatMap writeAttribute).length :=
    length_le_flatMap fun a _ => length_writeAttribute_pos a
  have hparts : ∀ a ∈ c.attributes,
      (writeText a.1).length + (writeValue a.2).length < limit := by
    intro a ha
    have hle : (writeAttribute a).length ≤ (c.attributes.flatMap writeAttribute).length :=
      length_le_flatMap_of_mem ha
    rw [writeAttribute, List.length_append] at hle
    omega
  constructor
  · omega
  · exact fun a ha => textFits_of_length (Nat.lt_of_le_of_lt (Nat.le_add_right ..) (hparts a ha))
  · exact fun a ha => valueFits_of_length (Nat.lt_of_le_of_lt (Nat.le_add_left ..) (hparts a ha))

theorem groupFits_of_length {g : Group} (h : (writeGroup g).length < limit) :
    ∀ x ∈ g.preorder, GroupFits limit x := by
  induction g using Group.induct with
  | node operator items groups ih =>
    rw [writeGroup_eq] at h
    simp only [List.length_append] at h
    have hitems : items.length ≤ (items.flatMap writeCondition).length :=
      length_le_flatMap fun c _ => length_writeCondition_pos c
    have hgroups : groups.length ≤ (groups.flatMap writeGroup).length :=
      length_le_flatMap fun g _ => length_writeGroup_pos g
    intro x hx
    rw [Group.preorder_eq, Group.preorderAll_eq_flatMap] at hx
    rcases List.mem_cons.1 hx with rfl | hx
    · refine ⟨Nat.lt_of_le_of_lt hitems (by omega), Nat.lt_of_le_of_lt hgroups (by omega),
        fun c hc => conditionFits_of_length hlimit ?_⟩
      have hle : (writeCondition c).length ≤ (items.flatMap writeCondition).length :=
        length_le_flatMap_of_mem hc
      omega
    · obtain ⟨child, hchild, hx⟩ := List.mem_flatMap.1 hx
      have hle : (writeGroup child).length ≤ (groups.flatMap writeGroup).length :=
        length_le_flatMap_of_mem hchild
      exact ih child hchild (by omega) x hx

theorem fits_of_length {p : Payload} (hgroups : p.groupCount < capacity 8)
    (hconditions : p.conditionCount < capacity 8) (h : p.write.length < limit) :
    p.FitsWithin limit := by
  rw [write_eq] at h
  simp only [List.length_append] at h
  refine ⟨hgroups, hconditions, textFits_of_length (by omega), fun g hg => ?_⟩
  simp only [Option.mem_def.1 hg, writeWhole, List.length_cons] at h
  exact groupFits_of_length hlimit (by omega)

end

/-! ## Counts

No group has more nodes than bytes. -/

theorem length_preorderAll_le {gs : List Group}
    (h : ∀ g ∈ gs, g.groupCount + g.conditionCount ≤ (writeGroup g).length) :
    (gs.flatMap Group.preorder).length + (gs.flatMap Group.conditions).length ≤
      (gs.flatMap writeGroup).length := by
  induction gs with
  | nil => exact Nat.le_refl 0
  | cons g gs ih =>
    have hfirst := h g (List.mem_cons_self ..)
    have hmore := ih fun g' hg' => h g' (List.mem_cons_of_mem _ hg')
    simp only [Group.groupCount, Group.conditionCount] at hfirst
    simp only [List.flatMap_cons, List.length_append]
    omega

theorem counts_le_length_writeGroup (g : Group) :
    g.groupCount + g.conditionCount ≤ (writeGroup g).length := by
  induction g using Group.induct with
  | node operator items groups ih =>
    have hnested := length_preorderAll_le ih
    have hitems : items.length ≤ (items.flatMap writeCondition).length :=
      length_le_flatMap fun c _ => length_writeCondition_pos c
    have hoperator := length_writeOperator_pos operator
    have hconditions : (groups.flatMap Group.preorder).flatMap Group.items =
        groups.flatMap Group.conditions := List.flatMap_assoc
    rw [writeGroup_eq, Group.groupCount, Group.conditionCount, Group.conditions, Group.preorder_eq,
      Group.preorderAll_eq_flatMap, List.flatMap_cons, hconditions]
    simp only [List.length_append, List.length_cons]
    omega

end WhenClause.Snapshot
