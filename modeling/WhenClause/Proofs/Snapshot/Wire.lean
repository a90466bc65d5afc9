import WhenClause.Snapshot.Payload
import WhenClause.Proofs.Utf8.Decoding

/-!
# The wire format

Which bytes stand for what in a payload, without saying how bytes are read. Each relation holds
between something and a form that it may take. A number may take a form wider than it needs, and
the attributes of a condition may stand in any order, with keys repeated; all else has one form
for each choice of these. No text is longer than a buffer can be.
-/

namespace WhenClause.Snapshot.Wire

/-- A number in a form that can hold it. Only where wide numbers are expected is there a form of
eight bytes. -/
inductive Number (wide : Bool) : Nat → Bytes → Prop
  | one {n : Nat} (h : n < 251) : Number wide n [UInt8.ofNat n]
  | two {n : Nat} (h : n < capacity 2) : Number wide n (251 :: littleEndian 2 n)
  | four {n : Nat} (h : n < capacity 4) : Number wide n (252 :: littleEndian 4 n)
  | eight {n : Nat} (h : n < capacity 8) (admitted : wide = true) :
      Number wide n (253 :: littleEndian 8 n)

inductive Text : String → Bytes → Prop
  | mk {s : String} {x : Bytes} (length : Number true (Utf8.encode s.toList).length x)
      (held : (Utf8.encode s.toList).length ≤ largestBuffer) : Text s (x ++ Utf8.encode s.toList)

inductive ValueForm : Value → Bytes → Prop
  | int {n : Int64} {x y : Bytes} (kind : Number false 0 x) (h : Number true (zigzag n.toInt) y) :
      ValueForm (.int n) (x ++ y)
  | float {x : Bytes} (kind : Number false 1 x) (v : Binary64) :
      ValueForm (.float v) (x ++ littleEndian 8 v.bits.toNat)
  | bool {x : Bytes} (kind : Number false 2 x) (b : Bool) :
      ValueForm (.bool b) (x ++ [if b then 1 else 0])
  | str {s : String} {x y : Bytes} (kind : Number false 3 x) (h : Text s y) :
      ValueForm (.str s) (x ++ y)

inductive AttributeForm : String × Value → Bytes → Prop
  | mk {key : String} {v : Value} {x y : Bytes} (name : Text key x) (holds : ValueForm v y) :
      AttributeForm (key, v) (x ++ y)

section

variable {α : Type} (form : α → Bytes → Prop)

inductive Sequence : List α → Bytes → Prop
  | nil : Sequence [] []
  | cons {a : α} {as : List α} {x y : Bytes} (first : form a x) (more : Sequence as y) :
      Sequence (a :: as) (x ++ y)

inductive Counted : List α → Bytes → Prop
  | mk {as : List α} {x y : Bytes} (length : Number true as.length x)
      (all : Sequence form as y) : Counted as (x ++ y)

inductive Optional : Option α → Bytes → Prop
  | none : Optional none [0]
  | some {a : α} {x : Bytes} (h : form a x) : Optional (some a) (1 :: x)

end

/-- A condition has the attributes that are listed, and under a repeated key the last value. -/
inductive ConditionForm : Condition → Bytes → Prop
  | mk {c : Condition} {as : List (String × Value)} {x : Bytes}
      (listed : Counted AttributeForm as x)
      (last : ∀ key, c.get? key = as.reverse.lookup key) : ConditionForm c x

inductive OperatorForm : Operator → Bytes → Prop
  | and {x : Bytes} (h : Number false 0 x) : OperatorForm .and x
  | or {x : Bytes} (h : Number false 1 x) : OperatorForm .or x

inductive GroupForm : Group → Bytes → Prop
  | mk {operator : Option Operator} {items : List Condition} {groups : List Group}
      {w x y z : Bytes} (front : Optional OperatorForm operator w)
      (conditions : Counted ConditionForm items x) (length : Number true groups.length y)
      (nested : Sequence GroupForm groups z) :
      GroupForm ⟨operator, items, groups⟩ (w ++ (x ++ (y ++ z)))

inductive PayloadForm : Payload → Bytes → Prop
  | mk {groupCount conditionCount : Nat} {name : String} {group : Option Group} {w x y z : Bytes}
      (groups : Number true groupCount w) (conditions : Number true conditionCount x)
      (title : Text name y) (whole : Optional GroupForm group z) :
      PayloadForm ⟨groupCount, conditionCount, name, group⟩ (w ++ (x ++ (y ++ z)))

/-! ## What a form starts with -/

theorem not_number_nil {wide : Bool} {n : Nat} : ¬ Number wide n [] := nofun

theorem number_one_iff {wide : Bool} {n : Nat} {b : UInt8} {back : Bytes} (hb : b.toNat < 251) :
    Number wide n (b :: back) ↔ n = b.toNat ∧ back = [] := by
  constructor
  · intro h
    cases h with
    | one h => exact ⟨(UInt8.toNat_ofNat_of_lt' (show _ < 256 by omega)).symm, rfl⟩
    | two | four | eight => exact absurd hb (by decide)
  · rintro ⟨rfl, rfl⟩
    simpa using (Number.one hb : Number wide b.toNat _)

theorem number_marked_iff {wide : Bool} {n : Nat} {b : UInt8} {back : Bytes}
    (hb : ¬ b.toNat < 251) :
    Number wide n (b :: back) ↔ ∃ width, (b.toNat = 251 ∧ width = 2 ∨ b.toNat = 252 ∧ width = 4 ∨
      (b.toNat = 253 ∧ wide = true) ∧ width = 8) ∧
        back = littleEndian width n ∧ n < capacity width := by
  constructor
  · intro h
    cases h with
    | one h =>
      rw [UInt8.toNat_ofNat_of_lt' (show _ < 256 by omega)] at hb
      exact absurd h hb
    | two h => exact ⟨2, .inl ⟨rfl, rfl⟩, rfl, h⟩
    | four h => exact ⟨4, .inr (.inl ⟨rfl, rfl⟩), rfl, h⟩
    | eight h admitted => exact ⟨8, .inr (.inr ⟨⟨rfl, admitted⟩, rfl⟩), rfl, h⟩
  · rintro ⟨width, ⟨hmarker, rfl⟩ | ⟨hmarker, rfl⟩ | ⟨⟨hmarker, admitted⟩, rfl⟩, rfl, h⟩ <;>
      rw [← UInt8.ofNat_toNat (x := b), hmarker]
    · exact .two h
    · exact .four h
    · exact .eight h admitted

theorem Number.lt {wide : Bool} {n : Nat} {front : Bytes} (h : Number wide n front) :
    n < capacity 8 := by
  have hpow : capacity 2 = 65536 ∧ capacity 4 = 4294967296 ∧ capacity 8 = 18446744073709551616 :=
    by decide
  cases h <;> omega

def body : Value → Bytes → Prop
  | .int n, back => Number true (zigzag n.toInt) back
  | .float x, back => back = littleEndian 8 x.bits.toNat
  | .bool b, back => back = [if b then 1 else 0]
  | .str s, back => Text s back

def kind : Value → Fin 4
  | .int _ => 0
  | .float _ => 1
  | .bool _ => 2
  | .str _ => 3

theorem valueForm_iff {v : Value} {front : Bytes} :
    ValueForm v front ↔
      ∃ x y, front = x ++ y ∧ Number false (kind v).val x ∧ body v y := by
  constructor
  · rintro (⟨hx, hy⟩ | ⟨hx, v⟩ | ⟨hx, b⟩ | ⟨hx, hy⟩)
    · exact ⟨_, _, rfl, hx, hy⟩
    · exact ⟨_, _, rfl, hx, rfl⟩
    · exact ⟨_, _, rfl, hx, rfl⟩
    · exact ⟨_, _, rfl, hx, hy⟩
  · rintro ⟨x, y, rfl, hx, hy⟩
    cases v with
    | int n => exact .int hx hy
    | float x =>
      cases hy
      exact .float hx x
    | bool b =>
      cases hy
      exact .bool hx b
    | str s => exact .str hx hy

theorem Optional.length_pos {α : Type} {form : α → Bytes → Prop} {o : Option α} {front : Bytes}
    (h : Optional form o front) : 0 < front.length := by
  cases h <;> exact Nat.succ_pos _

theorem not_groupForm_nil (g : Group) : ¬ GroupForm g [] := by
  intro h
  generalize hfront : ([] : Bytes) = front at h
  cases h with
  | mk hw =>
    have hpos := hw.length_pos
    have hnil := (List.append_eq_nil_iff.1 hfront.symm).1
    rw [hnil] at hpos
    cases hpos

end WhenClause.Snapshot.Wire
