import WhenClause.Proofs.Snapshot.Reading

/-!
# Payloads that stop the program

A text that is said to be longer than any buffer stops the program, whether or not so many bytes
stand behind its length. Which payloads do so is told by their first bytes: they end with such a
length, and all before it has one of its forms. No other payload stops the program.
-/

namespace WhenClause.Snapshot.Wire

/-! ## Beginnings that end with too great a length -/

inductive TextOverflow : Bytes → Prop
  | mk {n : Nat} {x : Bytes} (length : Number true n x) (long : largestBuffer < n) :
      TextOverflow x

inductive ValueOverflow : Bytes → Prop
  | str {x y : Bytes} (kind : Number false 3 x) (h : TextOverflow y) : ValueOverflow (x ++ y)

inductive AttributeOverflow : Bytes → Prop
  | name {x : Bytes} (h : TextOverflow x) : AttributeOverflow x
  | value {key : String} {x y : Bytes} (name : Text key x) (h : ValueOverflow y) :
      AttributeOverflow (x ++ y)

section

variable {α : Type} (form : α → Bytes → Prop) (overflow : Bytes → Prop)

/-- One of so many things is too long, and those before it have their forms. -/
inductive SequenceOverflow : Nat → Bytes → Prop
  | first {n : Nat} {x : Bytes} (h : overflow x) : SequenceOverflow (n + 1) x
  | later {n : Nat} {a : α} {x y : Bytes} (first : form a x) (h : SequenceOverflow n y) :
      SequenceOverflow (n + 1) (x ++ y)

inductive CountedOverflow : Bytes → Prop
  | mk {n : Nat} {x y : Bytes} (length : Number true n x)
      (h : SequenceOverflow form overflow n y) : CountedOverflow (x ++ y)

end

def ConditionOverflow : Bytes → Prop := CountedOverflow AttributeForm AttributeOverflow

inductive GroupOverflow : Bytes → Prop
  | items {operator : Option Operator} {w x : Bytes} (front : Optional OperatorForm operator w)
      (h : CountedOverflow ConditionForm ConditionOverflow x) : GroupOverflow (w ++ x)
  | groups {operator : Option Operator} {items : List Condition} {w x y : Bytes}
      (front : Optional OperatorForm operator w) (conditions : Counted ConditionForm items x)
      (h : CountedOverflow GroupForm GroupOverflow y) : GroupOverflow (w ++ (x ++ y))

inductive PayloadOverflow : Bytes → Prop
  | name {groupCount conditionCount : Nat} {w x y : Bytes} (groups : Number true groupCount w)
      (conditions : Number true conditionCount x) (h : TextOverflow y) :
      PayloadOverflow (w ++ (x ++ y))
  | group {groupCount conditionCount : Nat} {name : String} {w x y z : Bytes}
      (groups : Number true groupCount w) (conditions : Number true conditionCount x)
      (title : Text name y) (h : GroupOverflow z) : PayloadOverflow (w ++ (x ++ (y ++ 1 :: z)))

theorem not_groupOverflow_nil : ¬ GroupOverflow [] := by
  intro h
  generalize hfront : ([] : Bytes) = front at h
  cases h with
  | items front | groups front =>
    have hpos := front.length_pos
    rw [(List.append_eq_nil_iff.1 hfront.symm).1] at hpos
    cases hpos

end WhenClause.Snapshot.Wire

namespace WhenClause.Snapshot.Reader

open Wire

variable {α β : Type} {input : Bytes}

theorem bind_eq_capacityOverflow_iff {r : Reader α} {k : α → Reader β} :
    (r >>= k) input = .error .capacityOverflow ↔ r input = .error .capacityOverflow ∨
      ∃ a mid, r input = .ok (a, mid) ∧ k a mid = .error .capacityOverflow := by
  change (r input >>= fun p => k p.1 p.2) = _ ↔ _
  rcases r input with halt | ⟨a, mid⟩
  · simp [Bind.bind, Except.bind]
  · constructor
    · intro hk
      exact .inr ⟨a, mid, rfl, hk⟩
    · rintro (heq | ⟨_, _, heq, hk⟩)
      · cases heq
      · cases heq
        exact hk

/-- At this input, the reader stops the program exactly if the input begins like this. -/
def Overflows (r : Reader α) (overflow : Bytes → Prop) (input : Bytes) : Prop :=
  r input = .error .capacityOverflow ↔ ∃ front rest, input = front ++ rest ∧ overflow front

namespace Overflows

variable {r : Reader α} {form : α → Bytes → Prop} {overflow overflow' : Bytes → Prop}

theorem congr (h : Overflows r overflow input)
    (hfront : ∀ front, overflow front ↔ overflow' front) : Overflows r overflow' input := by
  simpa only [Overflows, hfront] using h

theorem never_iff :
    Overflows r (fun _ => False) input ↔ r input ≠ .error .capacityOverflow := by
  simp only [Overflows, and_false, exists_false, iff_false, ne_eq]

theorem pure (a : α) : Overflows (Pure.pure a) (fun _ => False) input := never_iff.2 nofun

theorem fail (f : Fault) : Overflows (Reader.fail f : Reader α) (fun _ => False) input :=
  never_iff.2 nofun

theorem bind {k : α → Reader β} (h : Overflows r overflow input) (hr : Reads r form input)
    (next : α → Bytes → Prop)
    (hk : ∀ a front rest, input = front ++ rest → form a front → Overflows (k a) (next a) rest) :
    Overflows (r >>= k)
      (fun both => overflow both ∨ ∃ a x y, both = x ++ y ∧ form a x ∧ next a y) input := by
  rw [Overflows, bind_eq_capacityOverflow_iff]
  constructor
  · rintro (hover | ⟨a, mid, hread, hnext⟩)
    · obtain ⟨front, rest, heq, hfront⟩ := h.1 hover
      exact ⟨front, rest, heq, .inl hfront⟩
    · obtain ⟨x, rfl, hx⟩ := (hr a mid).1 hread
      obtain ⟨y, rest, rfl, hy⟩ := (hk a x mid rfl hx).1 hnext
      exact ⟨x ++ y, rest, (List.append_assoc ..).symm, .inr ⟨a, x, y, rfl, hx, hy⟩⟩
  · rintro ⟨_, rest, rfl, hfront | ⟨a, x, y, rfl, hx, hy⟩⟩
    · exact .inl (h.2 ⟨_, rest, rfl, hfront⟩)
    · have hsplit := List.append_assoc x y rest
      exact .inr ⟨a, y ++ rest, (hr a _).2 ⟨x, hsplit, hx⟩,
        (hk a x _ hsplit hx).2 ⟨y, rest, rfl, hy⟩⟩

theorem check {k : α → Reader β} (h : Overflows r overflow input)
    (hk : ∀ a rest, Overflows (k a) (fun _ => False) rest) :
    Overflows (r >>= k) overflow input := by
  refine Iff.trans bind_eq_capacityOverflow_iff (Iff.trans ?_ h)
  constructor
  · rintro (hover | ⟨a, mid, _, hnext⟩)
    · exact hover
    · exact absurd hnext (never_iff.1 (hk a mid))
  · exact .inl

theorem map (h : Overflows r overflow input) (f : α → β) :
    Overflows (r >>= fun a => Pure.pure (f a)) overflow input :=
  h.check fun a _ => pure (f a)

end Overflows

/-! ## Numbers and texts -/

theorem overflows_take (n : Nat) : Overflows (take n) (fun _ => False) input := by
  apply Overflows.never_iff.2
  simp only [take]
  split <;> simp

theorem overflows_byte : Overflows byte (fun _ => False) input := by
  cases input with
  | nil | cons => exact Overflows.never_iff.2 nofun

theorem overflows_varint (p : Purpose) : Overflows (varint p) (fun _ => False) input := by
  apply Overflows.never_iff.2
  cases input with
  | nil => nofun
  | cons b bytes =>
    rw [varint_cons]
    split
    · nofun
    split
    · exact Overflows.never_iff.1 ((overflows_take _).map ofLittleEndian)
    · nofun

theorem overflows_buffer (n : Nat) :
    Overflows (buffer n) (fun front => front = [] ∧ largestBuffer < n) input := by
  rw [buffer_eq]
  by_cases h : largestBuffer < n
  · rw [if_pos h]
    exact ⟨fun _ => ⟨[], input, rfl, rfl, h⟩, fun _ => rfl⟩
  · rw [if_neg h]
    exact (overflows_take n).congr fun front => by simp [h]

theorem overflows_text : Overflows text TextOverflow input := by
  refine ((overflows_varint .count).bind (reads_varint .count) _ fun n _ _ _ _ =>
    (overflows_buffer n).check fun bytes _ => ?_).congr fun front => ?_
  · cases Utf8.decode bytes with
    | ok s => exact .pure _
    | error f => exact .fail _
  · constructor
    · rintro (h | ⟨n, x, _, rfl, hx, rfl, long⟩)
      · cases h
      · exact (List.append_nil x).symm ▸ .mk hx long
    · rintro ⟨hx, long⟩
      exact .inr ⟨_, front, [], (List.append_nil front).symm, hx, rfl, long⟩

/-! ## Choices and values -/

theorem overflows_bool : Overflows bool (fun _ => False) input :=
  overflows_byte.check fun n _ => match n with
    | 0 => .pure false
    | 1 => .pure true
    | n + 2 => .fail (.boolean (n + 2))

theorem overflows_option {r : Reader α} {overflow : Bytes → Prop}
    (h : ∀ b rest, input = b :: rest → Overflows r overflow rest) :
    Overflows (option r) (fun front => ∃ x, front = 1 :: x ∧ overflow x) input := by
  refine (overflows_byte.bind reads_byte (fun n back => n = 1 ∧ overflow back)
    fun n front rest hinput hn => ?_).congr fun front => ?_
  · obtain ⟨b, rfl, _⟩ := hn
    match n with
    | 0 => exact (Overflows.pure none).congr fun back => by simp
    | 1 => exact ((h b rest hinput).map some).congr fun back => by simp
    | n + 2 => exact (Overflows.fail (.optionTag (n + 2))).congr fun back => by simp
  · constructor
    · rintro (h | ⟨_, _, x, rfl, ⟨b, rfl, hb⟩, rfl, hx⟩)
      · cases h
      · rw [(eq_ofNat_iff (by decide)).1 hb]
        exact ⟨x, rfl, hx⟩
    · rintro ⟨x, rfl, hx⟩
      exact .inr ⟨1, [1], x, rfl, ⟨1, rfl, rfl⟩, rfl, hx⟩

theorem overflows_choice (count : Nat) : Overflows (choice count) (fun _ => False) input := by
  refine (overflows_varint .variant).check fun n _ => ?_
  split
  · exact .pure _
  · exact .fail _

theorem overflows_operator : Overflows operator (fun _ => False) input :=
  (overflows_choice 2).check fun i _ => match i with
    | 0 => .pure Operator.and
    | 1 => .pure Operator.or

theorem overflows_value : Overflows value ValueOverflow input := by
  refine ((overflows_choice 4).bind (reads_choice 4) (fun i back => i = 3 ∧ TextOverflow back)
    fun i _ _ _ _ => ?_).congr fun front => ?_
  · match i with
    | 0 => exact ((overflows_varint .integer).map _).congr fun back => by simp
    | 1 => exact ((overflows_take 8).map _).congr fun back => by simp
    | 2 => exact (overflows_bool.map _).congr fun back => by simp
    | 3 => exact (overflows_text.map _).congr fun back => by simp
  · constructor
    · rintro (h | ⟨_, x, y, rfl, hx, rfl, hy⟩)
      · cases h
      · exact .str hx hy
    · rintro ⟨hx, hy⟩
      exact .inr ⟨3, _, _, rfl, hx, rfl, hy⟩

theorem overflows_entry : Overflows entry AttributeOverflow input := by
  refine (overflows_text.bind reads_text _ fun key _ _ _ _ =>
    overflows_value.map fun v => (key, v)).congr fun front => ?_
  constructor
  · rintro (hx | ⟨key, x, y, rfl, hx, hy⟩)
    · exact .name hx
    · exact .value hx hy
  · rintro (hx | ⟨hx, hy⟩)
    · exact .inl hx
    · exact .inr ⟨_, _, _, rfl, hx, hy⟩

/-! ## Lists and groups -/

section

variable {r : Reader α} {form : α → Bytes → Prop} {overflow : Bytes → Prop}

theorem overflows_exactly (hr : ∀ rest, rest <:+ input → Reads r form rest)
    (h : ∀ rest, rest <:+ input → Overflows r overflow rest) (n : Nat) :
    Overflows (exactly r n) (SequenceOverflow form overflow n) input := by
  induction n generalizing input with
  | zero => exact (Overflows.pure []).congr fun front => ⟨nofun, nofun⟩
  | succ n ih =>
    have hself := List.suffix_refl input
    refine ((h input hself).bind (hr input hself) (fun _ => SequenceOverflow form overflow n)
      fun a _ _ hinput _ => (ih (fun _ hrest => hr _ (suffix_of_eq_append hinput hrest))
        fun _ hrest => h _ (suffix_of_eq_append hinput hrest)).map fun as => a :: as).congr
          fun front => ?_
    constructor
    · rintro (hx | ⟨a, x, y, rfl, hx, hy⟩)
      · exact .first hx
      · exact .later hx hy
    · rintro (hx | ⟨hx, hy⟩)
      · exact .inl hx
      · exact .inr ⟨_, _, _, rfl, hx, hy⟩

theorem overflows_list (hr : ∀ rest, rest <:+ input → Reads r form rest)
    (h : ∀ rest, rest <:+ input → Overflows r overflow rest) :
    Overflows (list r) (CountedOverflow form overflow) input := by
  refine ((overflows_varint .length).bind (reads_varint .length) (SequenceOverflow form overflow)
    fun n _ _ hinput _ => overflows_exactly
      (fun _ hrest => hr _ (suffix_of_eq_append hinput hrest))
      (fun _ hrest => h _ (suffix_of_eq_append hinput hrest)) n).congr fun front => ?_
  constructor
  · rintro (h | ⟨_, x, y, rfl, hx, hy⟩)
    · cases h
    · exact .mk hx hy
  · rintro ⟨hx, hy⟩
    exact .inr ⟨_, _, _, rfl, hx, hy⟩

end

theorem overflows_condition : Overflows condition ConditionOverflow input :=
  (overflows_list (fun _ _ => reads_entry) fun _ _ => overflows_entry).map Condition.ofList

theorem overflows_group {depth : Nat} (h : input.length ≤ depth) :
    Overflows (group depth) GroupOverflow input := by
  induction depth generalizing input with
  | zero =>
    obtain rfl := List.eq_nil_of_length_eq_zero (Nat.le_zero.1 h)
    refine ⟨nofun, ?_⟩
    rintro ⟨front, rest, heq, hfront⟩
    rw [(List.append_eq_nil_iff.1 heq.symm).1] at hfront
    exact absurd hfront not_groupOverflow_nil
  | succ depth ih =>
    refine ((overflows_option fun _ _ _ => overflows_operator).bind
      (reads_option fun _ _ _ => reads_operator) _ fun o x mid hmid hx =>
        (overflows_list (fun _ _ => reads_condition) fun _ _ => overflows_condition).bind
          (reads_list fun _ _ => reads_condition) _ fun items y rest hrest _ =>
            (overflows_list (fun rest' hsuffix => reads_group ?_) fun rest' hsuffix =>
              ih ?_).map fun groups => Group.mk o items groups).congr fun front => ?_
    · exact length_le_of_operator h hmid hx hrest hsuffix
    · exact length_le_of_operator h hmid hx hrest hsuffix
    · constructor
      · rintro (⟨_, _, h⟩ | ⟨o, w, _, rfl, hw, hx | ⟨items, x, y, rfl, hx, hy⟩⟩)
        · cases h
        · exact .items hw hx
        · exact .groups hw hx hy
      · rintro (⟨hw, hx⟩ | ⟨hw, hx, hy⟩)
        · exact .inr ⟨_, _, _, rfl, hw, .inl hx⟩
        · exact .inr ⟨_, _, _, rfl, hw, .inr ⟨_, _, _, rfl, hx, hy⟩⟩

theorem overflows_payload : Overflows payload PayloadOverflow input := by
  have hread : Overflows (do return ⟨← varint .count, ← varint .count, ← text,
      ← option (group input.length)⟩ : Reader Payload) PayloadOverflow input := by
    refine ((overflows_varint .count).bind (reads_varint .count) _ fun gc _ rest hrest _ =>
      (overflows_varint .count).bind (reads_varint .count) _ fun cc _ rest' hrest' _ =>
        overflows_text.bind reads_text _ fun name _ rest'' hrest'' _ =>
          (overflows_option fun b back hback => overflows_group ?_).map fun whole =>
            Payload.mk gc cc name whole).congr fun front => ?_
    · subst hrest hrest' hrest'' hback
      simp only [List.length_append, List.length_cons]
      omega
    · constructor
      · rintro (h | ⟨gc, w, _, rfl, hw, h | ⟨cc, x, _, rfl, hx, hy |
          ⟨name, y, _, rfl, hy, z, rfl, hz⟩⟩⟩)
        · cases h
        · cases h
        · exact .name hw hx hy
        · exact .group hw hx hy hz
      · rintro (⟨hw, hx, hy⟩ | ⟨hw, hx, hy, hz⟩)
        · exact .inr ⟨_, _, _, rfl, hw, .inr ⟨_, _, _, rfl, hx, .inl hy⟩⟩
        · exact .inr ⟨_, _, _, rfl, hw, .inr ⟨_, _, _, rfl, hx, .inr ⟨_, _, _, rfl, hy, _, rfl,
            hz⟩⟩⟩
  exact hread

end WhenClause.Snapshot.Reader
