import WhenClause.Proofs.Condition.Listing
import WhenClause.Proofs.Snapshot.Wire

/-!
# Readers take what the wire format describes

At any input, each reader takes off exactly the forms of what it reads: it succeeds if and only if
the input starts with such a form, and leaves what stands behind it. So no input starts with forms
of two different things, and what follows a form has no say in how the form is read.
-/

namespace WhenClause.Snapshot.Reader

open Wire

variable {α β : Type} {input : Bytes}

theorem bind_eq_ok_iff {r : Reader α} {k : α → Reader β} {b : β} {rest : Bytes} :
    (r >>= k) input = .ok (b, rest) ↔
      ∃ a mid, r input = .ok (a, mid) ∧ k a mid = .ok (b, rest) := by
  change (r input >>= fun p => k p.1 p.2) = _ ↔ _
  rcases r input with f | ⟨a, mid⟩
  · simp [Bind.bind, Except.bind]
  · constructor
    · intro hk
      exact ⟨a, mid, rfl, hk⟩
    · rintro ⟨_, _, heq, hk⟩
      cases heq
      exact hk

/-- At this input, what the reader takes off are the forms. -/
def Reads (r : Reader α) (form : α → Bytes → Prop) (input : Bytes) : Prop :=
  ∀ a rest, r input = .ok (a, rest) ↔ ∃ front, input = front ++ rest ∧ form a front

namespace Reads

variable {r : Reader α} {form form' : α → Bytes → Prop}

theorem congr (h : Reads r form input) (hform : ∀ a front, form a front ↔ form' a front) :
    Reads r form' input := by
  intro a rest
  rw [h a rest]
  exact exists_congr fun front => and_congr_right fun _ => hform a front

theorem pure (a : α) : Reads (Pure.pure a) (fun b front => b = a ∧ front = []) input := by
  intro b rest
  constructor
  · intro h
    cases h
    exact ⟨[], rfl, rfl, rfl⟩
  · rintro ⟨_, rfl, rfl, rfl⟩
    rfl

theorem throw (halt : Halt) :
    Reads (MonadExcept.throw halt : Reader α) (fun _ _ => False) input := by
  intro a rest
  constructor
  · intro h
    cases h
  · rintro ⟨_, _, h⟩
    exact h.elim

theorem fail (f : Fault) : Reads (Reader.fail f : Reader α) (fun _ _ => False) input :=
  throw (.fault f)

theorem bind {k : α → Reader β} (h : Reads r form input) (next : α → β → Bytes → Prop)
    (hk : ∀ a front rest, input = front ++ rest → form a front → Reads (k a) (next a) rest) :
    Reads (r >>= k) (fun b both => ∃ a x y, both = x ++ y ∧ form a x ∧ next a b y) input := by
  intro b rest
  rw [bind_eq_ok_iff]
  constructor
  · rintro ⟨a, mid, hr, hrest⟩
    obtain ⟨x, rfl, hx⟩ := (h a mid).1 hr
    obtain ⟨y, rfl, hy⟩ := (hk a x mid rfl hx b rest).1 hrest
    exact ⟨x ++ y, (List.append_assoc ..).symm, a, x, y, rfl, hx, hy⟩
  · rintro ⟨_, rfl, a, x, y, rfl, hx, hy⟩
    have hsplit := List.append_assoc x y rest
    refine ⟨a, y ++ rest, (h a _).2 ⟨x, hsplit, hx⟩, ?_⟩
    exact (hk a x _ hsplit hx b rest).2 ⟨y, rfl, hy⟩

theorem check {k : α → Reader β} (h : Reads r form input) (holds : α → β → Prop)
    (hk : ∀ a rest, Reads (k a) (fun b back => holds a b ∧ back = []) rest) :
    Reads (r >>= k) (fun b front => ∃ a, holds a b ∧ form a front) input := by
  refine (h.bind _ fun a _ rest _ _ => hk a rest).congr fun b front => ?_
  constructor
  · rintro ⟨a, x, _, rfl, hx, hab, rfl⟩
    exact ⟨a, hab, (List.append_nil x).symm ▸ hx⟩
  · rintro ⟨a, hab, hfront⟩
    exact ⟨a, front, [], (List.append_nil front).symm, hfront, hab, rfl⟩

theorem map (h : Reads r form input) (f : α → β) :
    Reads (r >>= fun a => Pure.pure (f a)) (fun b front => ∃ a, b = f a ∧ form a front) input :=
  h.check (fun a b => b = f a) fun a _ => pure (f a)

theorem cons {r' : Reader α} {b : UInt8} (h : Reads r' form' input)
    (hr : r (b :: input) = r' input) (hnil : ∀ a, ¬ form a [])
    (hform : ∀ a back, form a (b :: back) ↔ form' a back) : Reads r form (b :: input) := by
  intro a rest
  rw [hr, h a rest]
  constructor
  · rintro ⟨back, rfl, hback⟩
    exact ⟨b :: back, rfl, (hform a back).2 hback⟩
  · rintro ⟨front, heq, hfront⟩
    cases front with
    | nil => exact absurd hfront (hnil a)
    | cons b' back =>
      obtain ⟨rfl, rfl⟩ := List.cons.inj heq
      exact ⟨back, rfl, (hform a back).1 hfront⟩

theorem nil {halt : Halt} (hr : r [] = .error halt) (hnil : ∀ a, ¬ form a []) :
    Reads r form [] := by
  intro a rest
  rw [hr]
  constructor
  · intro h
    cases h
  · rintro ⟨front, heq, hfront⟩
    obtain ⟨rfl, _⟩ := List.append_eq_nil_iff.1 heq.symm
    exact absurd hfront (hnil a)

end Reads

/-! ## Numbers and texts -/

theorem reads_take (n : Nat) :
    Reads (take n) (fun bytes front => front = bytes ∧ front.length = n) input := by
  intro bytes rest
  simp only [take]
  constructor
  · intro h
    split at h
    · rename_i hlength
      cases h
      exact ⟨_, (List.take_append_drop n input).symm, rfl, hlength⟩
    · cases h
  · rintro ⟨front, rfl, rfl, rfl⟩
    simp

theorem reads_littleEndian (width : Nat) :
    Reads (take width >>= fun bytes => Pure.pure (ofLittleEndian bytes))
      (fun n front => front = littleEndian width n ∧ n < capacity width) input := by
  refine ((reads_take width).map ofLittleEndian).congr fun n front => ?_
  constructor
  · rintro ⟨bytes, rfl, rfl, rfl⟩
    exact ⟨(littleEndian_ofLittleEndian front).symm, ofLittleEndian_lt front⟩
  · rintro ⟨rfl, hn⟩
    exact ⟨_, (ofLittleEndian_littleEndian hn).symm, rfl, length_littleEndian width n⟩

def Purpose.width? (p : Purpose) (marker : Nat) : Option Nat :=
  if marker = 251 then some 2
  else if marker = 252 then some 4
  else if marker = 253 ∧ p.isWide then some 8
  else none

theorem varint_cons (p : Purpose) (b : UInt8) (bytes : Bytes) :
    varint p (b :: bytes) =
      if b.toNat < 251 then .ok (b.toNat, bytes)
      else match p.width? b.toNat with
        | some width =>
          (take width >>= fun bytes => Pure.pure (ofLittleEndian bytes) : Reader Nat) bytes
        | none => fail (.integerType (p.expected (b :: bytes).length) (p.found b.toNat)) bytes :=
  rfl

theorem reads_varint (p : Purpose) : Reads (varint p) (Number p.isWide) input := by
  cases input with
  | nil => exact .nil rfl fun _ => not_number_nil
  | cons b bytes =>
    have hcons := varint_cons p b bytes
    by_cases hone : b.toNat < 251
    · rw [if_pos hone] at hcons
      exact (Reads.pure b.toNat).cons hcons (fun _ => not_number_nil) fun _ _ => number_one_iff hone
    rw [if_neg hone] at hcons
    cases hwidth : p.width? b.toNat with
    | some width =>
      rw [hwidth] at hcons
      refine (reads_littleEndian width).cons hcons (fun _ => not_number_nil) fun n back => ?_
      rw [number_marked_iff hone]
      grind [Purpose.width?]
    | none =>
      rw [hwidth] at hcons
      refine (Reads.fail _).cons hcons (fun _ => not_number_nil) fun n back => ?_
      rw [number_marked_iff hone]
      grind [Purpose.width?]

theorem buffer_eq (n : Nat) :
    buffer n = if largestBuffer < n then throw .capacityOverflow else take n := by
  unfold buffer
  split <;> rfl

theorem reads_buffer (n : Nat) :
    Reads (buffer n) (fun bytes front => front = bytes ∧ front.length = n ∧ n ≤ largestBuffer)
      input := by
  rw [buffer_eq]
  split
  case isTrue h =>
    refine (Reads.throw .capacityOverflow).congr fun bytes front => ?_
    simp only [Nat.not_le.2 h, and_false]
  case isFalse h =>
    refine (reads_take n).congr fun bytes front => and_congr_right fun _ => ?_
    simp only [Nat.not_lt.1 h, and_true]

theorem reads_encoded (n : Nat) :
    Reads (buffer n >>= fun bytes => match Utf8.decode bytes with
      | .ok s => Pure.pure (String.ofList s)
      | .error f => fail (.text f))
      (fun s front => front = Utf8.encode s.toList ∧ front.length = n ∧ n ≤ largestBuffer)
      input := by
  refine ((reads_buffer n).check (fun bytes s => bytes = Utf8.encode s.toList)
    fun bytes _ => ?_).congr fun s front => ?_
  · cases hdecode : Utf8.decode bytes with
    | ok cs =>
      refine (Reads.pure (String.ofList cs)).congr fun s back => ?_
      rw [← Utf8.decode_eq_ok_iff, hdecode, Except.ok.injEq, ← String.toList_inj,
        String.toList_ofList, eq_comm]
    | error f =>
      refine (Reads.fail (.text f)).congr fun s back => ?_
      rw [← Utf8.decode_eq_ok_iff, hdecode]
      simp
  · constructor
    · rintro ⟨_, rfl, rfl, hlength⟩
      exact ⟨rfl, hlength⟩
    · rintro ⟨rfl, hlength⟩
      exact ⟨_, rfl, rfl, hlength⟩

theorem reads_text : Reads text Text input := by
  refine ((reads_varint .count).bind _ fun n _ _ _ _ => reads_encoded n).congr fun s front => ?_
  constructor
  · rintro ⟨_, x, _, rfl, hx, rfl, rfl, held⟩
    exact .mk hx held
  · rintro ⟨hx, held⟩
    exact ⟨_, _, _, rfl, hx, rfl, rfl, held⟩

/-! ## Choices -/

theorem reads_byte : Reads byte (fun n front => ∃ b, front = [b] ∧ n = b.toNat) input := by
  cases input with
  | nil => exact .nil rfl fun _ h => by simp at h
  | cons b bytes =>
    refine (Reads.pure b.toNat).cons rfl (fun _ h => by simp at h) fun n back => ?_
    constructor
    · rintro ⟨_, heq, rfl⟩
      cases heq
      exact ⟨rfl, rfl⟩
    · rintro ⟨rfl, rfl⟩
      exact ⟨b, rfl, rfl⟩

theorem eq_ofNat_iff {b : UInt8} {n : Nat} (h : n < 256) : n = b.toNat ↔ b = UInt8.ofNat n := by
  rw [← UInt8.toNat_inj, UInt8.toNat_ofNat_of_lt' h, eq_comm]

theorem reads_bool : Reads bool (fun v front => front = [if v then 1 else 0]) input := by
  refine (reads_byte.check (fun n v => n = if v then 1 else 0) fun n _ => ?_).congr
    fun v front => ?_
  · match n with
    | 0 => exact (Reads.pure false).congr fun v back => by cases v <;> simp
    | 1 => exact (Reads.pure true).congr fun v back => by cases v <;> simp
    | n + 2 =>
      exact (Reads.fail (α := Bool) (.boolean (n + 2))).congr fun v back => by cases v <;> simp
  · cases v <;> simp [eq_ofNat_iff]

theorem reads_option {r : Reader α} {form : α → Bytes → Prop}
    (h : ∀ b rest, input = b :: rest → Reads r form rest) :
    Reads (option r) (Optional form) input := by
  refine (reads_byte.bind (fun n o back => n = 0 ∧ o = none ∧ back = [] ∨
    n = 1 ∧ ∃ a, o = some a ∧ form a back) fun n front rest hinput hn => ?_).congr fun o front => ?_
  · obtain ⟨b, rfl, _⟩ := hn
    match n with
    | 0 => exact (Reads.pure none).congr fun o back => by simp
    | 1 => exact ((h b rest hinput).map some).congr fun o back => by simp
    | n + 2 => exact (Reads.fail (α := Option α) (.optionTag (n + 2))).congr fun o back => by simp
  · constructor
    · rintro ⟨_, _, y, rfl, ⟨b, rfl, hb⟩, ⟨rfl, rfl, rfl⟩ | ⟨rfl, a, rfl, ha⟩⟩
      · rw [(eq_ofNat_iff (by decide)).1 hb]
        exact .none
      · rw [(eq_ofNat_iff (by decide)).1 hb]
        exact .some ha
    · rintro (_ | ha)
      · exact ⟨0, [0], [], rfl, ⟨0, rfl, rfl⟩, .inl ⟨rfl, rfl, rfl⟩⟩
      · exact ⟨1, [1], _, rfl, ⟨1, rfl, rfl⟩, .inr ⟨rfl, _, rfl, ha⟩⟩

theorem reads_choice (count : Nat) :
    Reads (choice count) (fun i front => Number false i front) input := by
  refine ((reads_varint .variant).check (fun n i => n = i.val) fun n _ => ?_).congr
    fun i front => by simp [Purpose.isWide]
  by_cases h : n < count
  · rw [dif_pos h]
    refine (Reads.pure (⟨n, h⟩ : Fin count)).congr fun i back => ?_
    rw [Fin.ext_iff, eq_comm]
  · rw [dif_neg h]
    refine (Reads.fail (.variant n count)).congr fun i back => ?_
    have := i.isLt
    grind

theorem reads_operator : Reads operator OperatorForm input := by
  refine ((reads_choice 2).check (fun i o => i = if o = .and then 0 else 1) fun i _ => ?_).congr
    fun o front => ?_
  · match i with
    | 0 => exact (Reads.pure Operator.and).congr fun o back => by cases o <;> simp
    | 1 => exact (Reads.pure Operator.or).congr fun o back => by cases o <;> simp
  · cases o with
    | and => exact ⟨fun ⟨_, rfl, h⟩ => .and h, fun (.and h) => ⟨_, rfl, h⟩⟩
    | or => exact ⟨fun ⟨_, rfl, h⟩ => .or h, fun (.or h) => ⟨_, rfl, h⟩⟩

/-! ## Values and attributes -/

theorem toInt_ofInt_unzigzag {m : Nat} (h : m < capacity 8) :
    (Int64.ofInt (unzigzag m)).toInt = unzigzag m := by
  have hm : m < 2 ^ 64 := h
  apply Int64.toInt_ofInt_of_le <;> unfold unzigzag <;> split <;> omega

theorem reads_value : Reads value ValueForm input := by
  refine ((reads_choice 4).bind (fun i v back => i = kind v ∧ body v back)
    fun i _ _ _ _ => ?_).congr fun v front => ?_
  · match i with
    | 0 =>
      refine ((reads_varint .integer).map fun m => Value.int (Int64.ofInt (unzigzag m))).congr
        fun v back => ?_
      constructor
      · rintro ⟨m, rfl, hm⟩
        refine ⟨rfl, ?_⟩
        rwa [body, toInt_ofInt_unzigzag hm.lt, zigzag_unzigzag]
      · rintro ⟨hkind, hv⟩
        cases v with
        | int n => exact ⟨zigzag n.toInt, by rw [unzigzag_zigzag, Int64.ofInt_toInt], hv⟩
        | float | bool | str => cases hkind
    | 1 =>
      refine ((reads_take 8).map fun bytes =>
        Value.float ⟨UInt64.ofNat (ofLittleEndian bytes)⟩).congr fun v back => ?_
      constructor
      · rintro ⟨bytes, rfl, rfl, hlength⟩
        refine ⟨rfl, ?_⟩
        have hlt := ofLittleEndian_lt back
        rw [hlength] at hlt
        rw [body, UInt64.toNat_ofNat', Nat.mod_eq_of_lt (b := 2 ^ 64) hlt, ← hlength,
          littleEndian_ofLittleEndian]
      · rintro ⟨hkind, hv⟩
        cases v with
        | float x =>
          have hx : x.bits.toNat < capacity 8 := x.bits.toNat_lt
          cases hv
          refine ⟨_, ?_, rfl, length_littleEndian ..⟩
          rw [ofLittleEndian_littleEndian hx, UInt64.ofNat_toNat]
        | int | bool | str => cases hkind
    | 2 =>
      refine (reads_bool.map Value.bool).congr fun v back => ?_
      cases v <;> simp [kind, body]
    | 3 =>
      refine (reads_text.map Value.str).congr fun v back => ?_
      cases v <;> simp [kind, body]
  · rw [valueForm_iff]
    constructor
    · rintro ⟨_, x, y, rfl, hx, rfl, hy⟩
      exact ⟨x, y, rfl, hx, hy⟩
    · rintro ⟨x, y, rfl, hx, hy⟩
      exact ⟨_, x, y, rfl, hx, rfl, hy⟩

theorem reads_entry : Reads entry AttributeForm input := by
  refine (reads_text.bind _ fun key _ _ _ _ => reads_value.map fun v => (key, v)).congr
    fun a front => ?_
  constructor
  · rintro ⟨key, x, y, rfl, hx, v, rfl, hy⟩
    exact .mk hx hy
  · rintro ⟨hx, hy⟩
    exact ⟨_, _, _, rfl, hx, _, rfl, hy⟩

/-! ## Lists -/

section

variable {r : Reader α} {form : α → Bytes → Prop}

theorem suffix_of_eq_append {front rest rest' : Bytes} (hinput : input = front ++ rest)
    (h : rest' <:+ rest) : rest' <:+ input :=
  hinput ▸ h.trans (List.suffix_append front rest)

theorem reads_exactly (h : ∀ rest, rest <:+ input → Reads r form rest) (n : Nat) :
    Reads (exactly r n) (fun as front => as.length = n ∧ Sequence form as front) input := by
  induction n generalizing input with
  | zero =>
    refine (Reads.pure []).congr fun as front => ?_
    constructor
    · rintro ⟨rfl, rfl⟩
      exact ⟨rfl, .nil⟩
    · rintro ⟨hlength, hall⟩
      cases hall with
      | nil => exact ⟨rfl, rfl⟩
      | cons => cases hlength
  | succ n ih =>
    refine ((h input (List.suffix_refl input)).bind _ fun a _ _ hinput _ =>
      (ih fun _ hrest => h _ (suffix_of_eq_append hinput hrest)).map fun as => a :: as).congr
        fun as front => ?_
    constructor
    · rintro ⟨a, x, y, rfl, hx, as, rfl, hlength, hy⟩
      exact ⟨congrArg (· + 1) hlength, .cons hx hy⟩
    · rintro ⟨hlength, hall⟩
      cases hall with
      | nil => cases hlength
      | cons hx hy => exact ⟨_, _, _, rfl, hx, _, rfl, Nat.succ.inj hlength, hy⟩

theorem reads_list (h : ∀ rest, rest <:+ input → Reads r form rest) :
    Reads (list r) (Counted form) input := by
  refine ((reads_varint .length).bind _ fun n _ _ hinput _ =>
    reads_exactly (fun _ hrest => h _ (suffix_of_eq_append hinput hrest)) n).congr
      fun as front => ?_
  constructor
  · rintro ⟨_, x, y, rfl, hx, rfl, hy⟩
    exact .mk hx hy
  · rintro ⟨hx, hy⟩
    exact ⟨_, _, _, rfl, hx, rfl, hy⟩

end

theorem reads_condition : Reads condition ConditionForm input := by
  refine ((reads_list fun _ _ => reads_entry).map Condition.ofList).congr fun c front => ?_
  constructor
  · rintro ⟨as, rfl, has⟩
    exact .mk has (Condition.ofList_eq_iff.1 rfl)
  · rintro ⟨has, last⟩
    exact ⟨_, Condition.ofList_eq_iff.2 last, has⟩

/-- Whether a group has an operator takes a byte, as going down into it takes a depth. -/
theorem length_le_of_operator {o : Option Operator} {x mid y rest rest' : Bytes} {depth : Nat}
    (h : input.length ≤ depth + 1) (hmid : input = x ++ mid) (hx : Optional OperatorForm o x)
    (hrest : mid = y ++ rest) (hsuffix : rest' <:+ rest) : rest'.length ≤ depth := by
  subst hmid hrest
  have hpos := hx.length_pos
  have hle := hsuffix.length_le
  simp only [List.length_append] at h
  omega

/-- Nothing is read from a group nested deeper than there are bytes, since each group takes some. -/
theorem reads_group {depth : Nat} (h : input.length ≤ depth) :
    Reads (group depth) GroupForm input := by
  induction depth generalizing input with
  | zero =>
    obtain rfl := List.eq_nil_of_length_eq_zero (Nat.le_zero.1 h)
    exact .nil rfl not_groupForm_nil
  | succ depth ih =>
    refine ((reads_option fun _ _ _ => reads_operator).bind _ fun o x mid hmid hx =>
      (reads_list fun _ _ => reads_condition).bind _ fun items y rest hrest _ =>
        (reads_list fun rest' hsuffix =>
          ih (length_le_of_operator h hmid hx hrest hsuffix)).map
            fun groups => Group.mk o items groups).congr fun g front => ?_
    constructor
    · rintro ⟨o, w, _, rfl, hw, items, x, _, rfl, hx, groups, rfl, ⟨hy, hz⟩⟩
      exact .mk hw hx hy hz
    · rintro ⟨hw, hx, hy, hz⟩
      exact ⟨_, _, _, rfl, hw, _, _, _, rfl, hx, _, rfl, .mk hy hz⟩

theorem reads_payload : Reads payload PayloadForm input := by
  have hread : Reads (do return ⟨← varint .count, ← varint .count, ← text,
      ← option (group input.length)⟩) PayloadForm input := by
    refine ((reads_varint .count).bind _ fun gc _ rest hrest _ =>
      (reads_varint .count).bind _ fun cc _ rest' hrest' _ =>
        reads_text.bind _ fun name _ rest'' hrest'' _ =>
          (reads_option fun b back hback => reads_group ?_).map fun whole =>
            Payload.mk gc cc name whole).congr fun p front => ?_
    · subst hrest hrest' hrest'' hback
      simp only [List.length_append, List.length_cons]
      omega
    · constructor
      · rintro ⟨gc, w, _, rfl, hw, cc, x, _, rfl, hx, name, y, z, rfl, hy, whole, rfl, hz⟩
        exact .mk hw hx hy hz
      · rintro ⟨hw, hx, hy, hz⟩
        exact ⟨_, _, _, rfl, hw, _, _, _, rfl, hx, _, _, _, rfl, hy, _, rfl, hz⟩
  exact hread

end WhenClause.Snapshot.Reader
