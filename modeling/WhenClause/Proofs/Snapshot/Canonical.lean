import Mathlib.Data.List.Flatten
import WhenClause.Proofs.Snapshot.RoundTrip

/-!
# Snapshots in canonical form

Of all forms in which a payload may be loaded the one that is written is the shortest. So whatever
loads can be saved again, and saving it once more changes nothing. Two rules have the same snapshot
exactly if they have the same name and the same value; neither the handles of a tree nor the edits
that led to it leave a trace.
-/

namespace WhenClause.Snapshot

open Wire

/-! ## What is written determines what was written

Where something ends is told by what is written of it, so of two things that begin alike one goes
on as the other does. No text is read for this, since there may be no buffer for it. -/

def Delimited {α : Type} (write : α → Bytes) (fits : α → Prop) (a : α) : Prop :=
  ∀ b x y, fits b → write a ++ x = write b ++ y → a = b ∧ x = y

theorem delimited_varint {n : Nat} (h : n < capacity 8) : Delimited varint (· < capacity 8) n := by
  have hread (k : Nat) (hk : k < capacity 8) (z : Bytes) :
      Reader.varint .count (varint k ++ z) = .ok (k, z) :=
    (Reader.reads_varint .count k z).2 ⟨varint k, rfl, number_varint hk⟩
  intro m x y hm heq
  have hn := hread n h x
  rw [heq, hread m hm y] at hn
  cases hn
  exact ⟨rfl, rfl⟩

theorem delimited_writeText {s : String} (h : TextFits (capacity 8) s) :
    Delimited writeText (TextFits (capacity 8)) s := by
  intro t x y ht heq
  simp only [writeText, List.append_assoc] at heq
  obtain ⟨hlength, hrest⟩ := delimited_varint h _ _ _ ht heq
  obtain ⟨hbytes, hxy⟩ := List.append_inj hrest hlength
  exact ⟨String.toList_inj.1 (Utf8.encode_injective hbytes), hxy⟩

def writeBody : Value → Bytes
  | .int n => varint (zigzag n.toInt)
  | .float x => littleEndian 8 x.bits.toNat
  | .bool b => [if b then 1 else 0]
  | .str s => writeText s

theorem writeValue_eq (v : Value) : writeValue v = varint (kind v).val ++ writeBody v := by
  cases v <;> rfl

theorem delimited_writeValue {v : Value} (h : ValueFits (capacity 8) v) :
    Delimited writeValue (ValueFits (capacity 8)) v := by
  intro w x y hw heq
  rw [writeValue_eq, writeValue_eq, List.append_assoc, List.append_assoc] at heq
  have hfour (i : Fin 4) : i.val < capacity 8 := Nat.lt_trans i.isLt (by decide)
  obtain ⟨hkind, hbody⟩ := delimited_varint (hfour _) _ _ _ (hfour _) heq
  cases v with
  | int n =>
    cases w with
    | int m =>
      obtain ⟨hnumber, hxy⟩ :=
        delimited_varint (zigzag_lt_capacity n) _ _ _ (zigzag_lt_capacity m) hbody
      have hint := congrArg unzigzag hnumber
      rw [unzigzag_zigzag, unzigzag_zigzag] at hint
      exact ⟨congrArg Value.int (Int64.toInt_inj.1 hint), hxy⟩
    | float | bool | str => cases hkind
  | float z =>
    cases w with
    | float z' =>
      have hword (z : Binary64) : z.bits.toNat < capacity 8 := z.bits.toNat_lt
      obtain ⟨hbytes, hxy⟩ := List.append_inj hbody (by simp only [writeBody, length_littleEndian])
      have hbits := congrArg ofLittleEndian hbytes
      rw [writeBody, writeBody, ofLittleEndian_littleEndian (hword z),
        ofLittleEndian_littleEndian (hword z'), UInt64.toNat_inj] at hbits
      exact ⟨congrArg (fun bits => Value.float ⟨bits⟩) hbits, hxy⟩
    | int | bool | str => cases hkind
  | bool b =>
    cases w with
    | bool b' =>
      obtain ⟨hbyte, hxy⟩ := List.append_inj hbody rfl
      have hsame : ∀ c c', writeBody (.bool c) = writeBody (.bool c') → c = c' := by decide
      exact ⟨congrArg Value.bool (hsame b b' hbyte), hxy⟩
    | int | float | str => cases hkind
  | str s =>
    cases w with
    | str t =>
      obtain ⟨hs, hxy⟩ := delimited_writeText h _ _ _ hw hbody
      exact ⟨congrArg Value.str hs, hxy⟩
    | int | float | bool => cases hkind

theorem delimited_writeAttribute {a : String × Value} (hkey : TextFits (capacity 8) a.1)
    (hvalue : ValueFits (capacity 8) a.2) :
    Delimited writeAttribute (fun b => TextFits (capacity 8) b.1 ∧ ValueFits (capacity 8) b.2)
      a := by
  intro b x y hb heq
  simp only [writeAttribute, List.append_assoc] at heq
  obtain ⟨hkeys, hrest⟩ := delimited_writeText hkey _ _ _ hb.1 heq
  obtain ⟨hvalues, hxy⟩ := delimited_writeValue hvalue _ _ _ hb.2 hrest
  exact ⟨Prod.ext hkeys hvalues, hxy⟩

section

variable {α : Type} {write : α → Bytes} {fits : α → Prop} {as : List α}

theorem flatMap_append_inj {bs : List α} {x y : Bytes} (h : ∀ a ∈ as, Delimited write fits a)
    (hfits : ∀ b ∈ bs, fits b) (hlength : as.length = bs.length)
    (heq : as.flatMap write ++ x = bs.flatMap write ++ y) : as = bs ∧ x = y := by
  induction as generalizing bs with
  | nil =>
    obtain rfl := List.eq_nil_of_length_eq_zero hlength.symm
    exact ⟨rfl, heq⟩
  | cons a as ih =>
    cases bs with
    | nil => cases hlength
    | cons b bs =>
      rw [List.flatMap_cons, List.flatMap_cons, List.append_assoc, List.append_assoc] at heq
      obtain ⟨rfl, hrest⟩ :=
        h a (List.mem_cons_self ..) b _ _ (hfits b (List.mem_cons_self ..)) heq
      obtain ⟨rfl, hxy⟩ := ih (fun a ha => h a (List.mem_cons_of_mem _ ha))
        (fun b hb => hfits b (List.mem_cons_of_mem _ hb)) (Nat.succ.inj hlength) hrest
      exact ⟨rfl, hxy⟩

theorem delimited_counted (hlength : as.length < capacity 8)
    (h : ∀ a ∈ as, Delimited write fits a) :
    Delimited (fun as : List α => varint as.length ++ as.flatMap write)
      (fun bs => bs.length < capacity 8 ∧ ∀ b ∈ bs, fits b) as := by
  intro bs x y hbs heq
  simp only [List.append_assoc] at heq
  obtain ⟨hlengths, hrest⟩ := delimited_varint hlength _ _ _ hbs.1 heq
  exact flatMap_append_inj h hbs.2 hlengths hrest

end

theorem delimited_writeCondition {c : Condition} (h : ConditionFits (capacity 8) c) :
    Delimited writeCondition (ConditionFits (capacity 8)) c := by
  intro d x y hd heq
  have hattributes : ∀ a ∈ c.attributes, Delimited writeAttribute _ a :=
    fun a ha => delimited_writeAttribute (h.keys a ha) (h.values a ha)
  obtain ⟨hsame, hxy⟩ := delimited_counted h.count hattributes d.attributes x y
    ⟨hd.count, fun a ha => ⟨hd.keys a ha, hd.values a ha⟩⟩ heq
  exact ⟨Condition.eq_of_attributes hsame, hxy⟩

theorem delimited_writeOperator (o : Option Operator) :
    Delimited writeOperator (fun _ => True) o := by
  intro p x y _ heq
  rcases o with _ | _ | _ <;> rcases p with _ | _ | _ <;> first
    | exact ⟨rfl, by simpa [writeOperator] using heq⟩
    | cases heq

theorem delimited_writeGroup {g : Group} (h : ∀ x ∈ g.preorder, GroupFits (capacity 8) x) :
    Delimited writeGroup (fun g => ∀ x ∈ g.preorder, GroupFits (capacity 8) x) g := by
  induction g using Group.induct with
  | node operator items groups ih =>
    intro g' x y h' heq
    obtain ⟨operator', items', groups'⟩ := g'
    obtain ⟨htop, hbelow⟩ := groupFits_nested h
    obtain ⟨htop', hbelow'⟩ := groupFits_nested h'
    rw [writeGroup_eq, writeGroup_eq] at heq
    simp only [List.append_assoc] at heq
    obtain ⟨rfl, hlists⟩ := delimited_writeOperator operator operator' _ _ trivial heq
    rw [← List.append_assoc, ← List.append_assoc (varint items'.length)] at hlists
    obtain ⟨rfl, hgroups⟩ := delimited_counted htop.items
      (fun c hc => delimited_writeCondition (htop.conditions c hc)) items' _ _
      ⟨htop'.items, htop'.conditions⟩ hlists
    rw [← List.append_assoc, ← List.append_assoc (varint groups'.length)] at hgroups
    obtain ⟨rfl, hxy⟩ := delimited_counted htop.groups (fun g hg => ih g hg (hbelow g hg)) groups'
      x y ⟨htop'.groups, hbelow'⟩ hgroups
    exact ⟨rfl, hxy⟩

theorem write_injective {p q : Payload} (hp : p.Fits) (hq : q.Fits) (h : p.write = q.write) :
    p = q := by
  obtain ⟨groupCount, conditionCount, name, group⟩ := p
  obtain ⟨groupCount', conditionCount', name', group'⟩ := q
  rw [write_eq, write_eq] at h
  obtain ⟨rfl, h⟩ := delimited_varint hp.groupCount _ _ _ hq.groupCount h
  obtain ⟨rfl, h⟩ := delimited_varint hp.conditionCount _ _ _ hq.conditionCount h
  obtain ⟨rfl, h⟩ := delimited_writeText hp.name _ _ _ hq.name h
  cases group with
  | none =>
    cases group' with
    | none => rfl
    | some g' => cases h
  | some g =>
    cases group' with
    | none => cases h
    | some g' =>
      have hgroups : writeGroup g ++ [] = writeGroup g' ++ [] :=
        congrArg (· ++ []) (List.cons.inj h).2
      obtain ⟨rfl, _⟩ :=
        delimited_writeGroup (hp.group g rfl) g' [] [] (hq.group g' rfl) hgroups
      rfl

theorem length_header (digest : Bytes → Digest) (payload : Bytes) :
    (header digest payload).length = headerLength := by
  simp [header, length_magic, headerLength]

theorem wrap_injective {digest : Bytes → Digest} {x y : Bytes}
    (h : wrap digest x = wrap digest y) : x = y := by
  have hlength : (header digest x).length = (header digest y).length := by
    rw [length_header, length_header]
  exact (List.append_inj h hlength).2

/-! ## What is written is shortest -/

theorem length_varint (n : Nat) :
    (varint n).length =
      if n < 251 then 1 else if n < 0x10000 then 3 else if n < 0x100000000 then 5 else 9 := by
  simp only [varint, apply_ite List.length, List.length_cons, List.length_nil, length_littleEndian]

theorem length_varint_mono {m n : Nat} (h : m ≤ n) : (varint m).length ≤ (varint n).length := by
  rw [length_varint, length_varint]
  grind

theorem length_varint_le {wide : Bool} {n : Nat} {x : Bytes} (h : Number wide n x) :
    (varint n).length ≤ x.length := by
  have htwo : capacity 2 = 0x10000 := by decide
  have hfour : capacity 4 = 0x100000000 := by decide
  rw [length_varint]
  cases h with
  | one h =>
    rw [if_pos h]
    exact Nat.le_refl 1
  | two h | four h | eight h =>
    rw [List.length_cons, length_littleEndian]
    grind

theorem length_writeText_le {s : String} {x : Bytes} (h : Text s x) :
    (writeText s).length ≤ x.length := by
  cases h with
  | mk length =>
    have hle := length_varint_le length
    simp only [writeText, List.length_append]
    omega

theorem length_writeValue_le {v : Value} {x : Bytes} (h : ValueForm v x) :
    (writeValue v).length ≤ x.length := by
  cases h with
  | int kind h =>
    have hkind := length_varint_le kind
    have hle := length_varint_le h
    simp only [writeValue, List.length_append]
    omega
  | float kind | bool kind =>
    have hkind := length_varint_le kind
    simp only [writeValue, List.length_append]
    omega
  | str kind h =>
    have hkind := length_varint_le kind
    have hle := length_writeText_le h
    simp only [writeValue, List.length_append]
    omega

theorem length_writeAttribute_le {a : String × Value} {x : Bytes} (h : AttributeForm a x) :
    (writeAttribute a).length ≤ x.length := by
  cases h with
  | mk name holds =>
    have hname := length_writeText_le name
    have hholds := length_writeValue_le holds
    simp only [writeAttribute, List.length_append]
    omega

theorem length_flatMap_le {α : Type} {form : α → Bytes → Prop} {write : α → Bytes} {as : List α}
    {x : Bytes} (h : Sequence form as x)
    (hform : ∀ a ∈ as, ∀ y, form a y → (write a).length ≤ y.length) :
    (as.flatMap write).length ≤ x.length := by
  induction h with
  | nil => exact Nat.le_refl 0
  | cons first _ ih =>
    have hfirst := hform _ (List.mem_cons_self ..) _ first
    have hmore := ih fun a ha => hform a (List.mem_cons_of_mem _ ha)
    rw [List.flatMap_cons, List.length_append, List.length_append]
    omega

theorem attributes_subperm {c : Condition} {as : List (String × Value)}
    (last : ∀ key, c.get? key = as.reverse.lookup key) : c.attributes.Subperm as := by
  have hnodup : c.attributes.Nodup := by
    apply c.ordered.imp
    rintro a b hlt rfl
    exact String.lt_irrefl _ hlt
  refine hnodup.subperm fun a ha => ?_
  have hget : c.get? a.1 = some a.2 := Attributes.lookup_of_mem c.ordered ha
  rw [last, List.lookup_eq_some_iff] at hget
  obtain ⟨front, back, hsplit, _⟩ := hget
  rw [← List.mem_reverse, hsplit]
  exact List.mem_append_right _ (List.mem_cons_self ..)

theorem length_flatMap_le_of_subperm {α : Type} {write : α → Bytes} {as bs : List α}
    (h : as.Subperm bs) : (as.flatMap write).length ≤ (bs.flatMap write).length := by
  obtain ⟨cs, hperm, hsub⟩ := h
  rw [← (hperm.flatMap_right write).length_eq]
  exact (hsub.flatMap write).length_le

theorem length_writeCondition_le {c : Condition} {x : Bytes} (h : ConditionForm c x) :
    (writeCondition c).length ≤ x.length := by
  cases h with
  | mk listed last =>
    cases listed with
    | mk length all =>
      -- The count shrinks with the list, as both are written.
      have hsub := attributes_subperm last
      have hcount := Nat.le_trans (length_varint_mono hsub.length_le) (length_varint_le length)
      have hall := Nat.le_trans (length_flatMap_le_of_subperm hsub)
        (length_flatMap_le all fun _ _ _ => length_writeAttribute_le)
      simp only [writeCondition, List.length_append]
      omega

theorem length_writeOperator_le {o : Option Operator} {x : Bytes}
    (h : Optional OperatorForm o x) : (writeOperator o).length ≤ x.length := by
  cases h with
  | none => exact Nat.le_refl 1
  | some h =>
    cases h with
    | and h | or h => exact Nat.succ_le_succ (length_varint_le h)

theorem length_writeGroup_le {g : Group} :
    ∀ {x : Bytes}, GroupForm g x → (writeGroup g).length ≤ x.length := by
  induction g using Group.induct with
  | node operator items groups ih =>
    intro x h
    cases h with
    | mk front conditions length nested =>
      cases conditions with
      | mk count all =>
        have hfront := length_writeOperator_le front
        have hcount := length_varint_le count
        have hlength := length_varint_le length
        have hitems := length_flatMap_le all fun _ _ _ => length_writeCondition_le
        have hgroups := length_flatMap_le nested fun g hg _ => ih g hg
        rw [writeGroup_eq]
        simp only [List.length_append]
        omega

theorem length_write_le {p : Payload} {x : Bytes} (h : PayloadForm p x) :
    p.write.length ≤ x.length := by
  rw [write_eq]
  cases h with
  | mk groups conditions title whole =>
    have hgroups := length_varint_le groups
    have hconditions := length_varint_le conditions
    have htitle := length_writeText_le title
    simp only [List.length_append]
    cases whole with
    | none =>
      simp only [writeWhole, List.length_singleton]
      omega
    | some h =>
      have hgroup := length_writeGroup_le h
      simp only [writeWhole, List.length_cons]
      omega

end WhenClause.Snapshot

namespace WhenClause.Rule

open Snapshot (Digest Payload capacity)

variable {r r' : Rule}

theorem counts_toPayload (h : r.tree.Reachable) :
    r.toPayload.groupCount = r.toPayload.countGroups ∧
      r.toPayload.conditionCount = r.toPayload.countConditions := by
  obtain ⟨_, hshape⟩ := h.shape
  exact ⟨hshape.counted.groups, hshape.counted.conditions⟩

theorem toPayload_eq_iff (h : r.tree.Reachable) (h' : r'.tree.Reachable) :
    r.toPayload = r'.toPayload ↔
      r.name = r'.name ∧ r.tree.rootGroup? = r'.tree.rootGroup? := by
  constructor
  · intro heq
    exact ⟨congrArg Payload.name heq, congrArg Payload.group heq⟩
  · rintro ⟨hname, hgroup⟩
    obtain ⟨hgroups, hconditions⟩ := counts_toPayload h
    obtain ⟨hgroups', hconditions'⟩ := counts_toPayload h'
    simp only [toPayload, Payload.countGroups, Payload.countConditions] at *
    rw [hgroups, hconditions, hgroups', hconditions', hname, hgroup]

/-- Snapshots tell no more about edited rules than their names and values, and no less. That
lengths fit their sixty-four bits is true of any rule in memory. -/
theorem encode_eq_encode_iff (h : r.tree.Reachable) (h' : r'.tree.Reachable)
    (digest : Bytes → Digest) :
    (r.name = r'.name → r.tree.rootGroup? = r'.tree.rootGroup? →
      r.encode digest = r'.encode digest) ∧
    (r.toPayload.Fits → r'.toPayload.Fits → (r.encode digest = r'.encode digest ↔
      r.name = r'.name ∧ r.tree.rootGroup? = r'.tree.rootGroup?)) := by
  have hsame := toPayload_eq_iff h h'
  have hencode (heq : r.toPayload = r'.toPayload) : r.encode digest = r'.encode digest :=
    congrArg (Snapshot.encode digest) heq
  refine ⟨fun hname hgroup => hencode (hsame.2 ⟨hname, hgroup⟩), fun hfits hfits' => ?_⟩
  rw [← hsame]
  constructor
  · intro heq
    exact Snapshot.write_injective hfits hfits' (Snapshot.wrap_injective heq)
  · exact hencode

/-- A group comes and goes and the attributes are set in the wrong order, which leaves no trace; a
float of another bit pattern does. -/
theorem encode_eq_encode_iff_reordered :
    let t := (Tree.ofGroup .empty).run [.addGroup (.group ⟨⟨0, 0⟩⟩) none, .removeGroup ⟨⟨1, 0⟩⟩,
      .addCondition ⟨⟨0, 0⟩⟩ none, .updateCondition ⟨⟨0, 0⟩⟩ (·.insert "b" (.bool true)),
      .updateCondition ⟨⟨0, 0⟩⟩ (·.insert "a" (.float ⟨0⟩))]
    let t' (x : Binary64) := Tree.ofGroup ⟨none, [.ofList [("a", .float x), ("b", .bool true)]], []⟩
    let r : Rule := ⟨"credit", t⟩
    let r' (x : Binary64) : Rule := ⟨"credit", t' x⟩
    r.encode Blake3.digest = (r' ⟨0⟩).encode Blake3.digest ∧
      (r.toPayload.Fits ∧ (r' ⟨0x8000000000000000⟩).toPayload.Fits ∧
        r.encode Blake3.digest ≠ (r' ⟨0x8000000000000000⟩).encode Blake3.digest) := by
  intro t t' r r'
  have hreached : t.Reachable := ⟨_, _, .ofGroup _, rfl⟩
  have hreached' : ∀ x, (t' x).Reachable := fun x => ⟨t' x, [], .ofGroup _, rfl⟩
  have hfits : r.toPayload.Fits :=
    Snapshot.fits_of_length (Nat.le_refl _) (by decide +kernel) (by decide +kernel)
      (by decide +kernel)
  have hfits' : (r' ⟨0x8000000000000000⟩).toPayload.Fits :=
    Snapshot.fits_of_length (Nat.le_refl _) (by decide +kernel) (by decide +kernel)
      (by decide +kernel)
  refine ⟨?_, hfits, hfits', fun heq => ?_⟩
  · exact (encode_eq_encode_iff hreached (hreached' _) _).1 rfl rfl
  · obtain ⟨_, hgroup⟩ := ((encode_eq_encode_iff hreached (hreached' _) _).2 hfits hfits').1 heq
    have hvalues := congrArg (Option.map fun g => g.items.map (·.get? "a")) hgroup
    revert hvalues
    decide +kernel

theorem Loads.toPayload {q : Payload} (h : r.Loads q) : r.toPayload = q := by
  rw [Rule.toPayload, h.groupCount, h.conditionCount, h.name, h.group]

theorem Loads.encode {q : Payload} (h : r.Loads q) (digest : Bytes → Digest) :
    r.encode digest = Snapshot.encode digest q :=
  congrArg (Snapshot.encode digest) h.toPayload

theorem Loads.alike_of_loads {q : Payload} (h' : r'.Loads q) (h : r.Loads q) : r'.Alike r :=
  Loads.alike (h.toPayload.symm ▸ h')

/-- What loads from some bytes has a snapshot that is no longer than they are, that loads again,
and that stays the same from then on. -/
theorem decode_encode_of_decode {digest : Bytes → Digest} {bytes : Bytes}
    (h : decode digest bytes = .ok r) :
    (r.encode digest).length ≤ bytes.length ∧ r.toPayload.write.length < 0x100000000 ∧
      ∃ r', decode digest (r.encode digest) = .ok r' ∧ r'.Alike r ∧
        r'.encode digest = r.encode digest := by
  obtain ⟨q, haccepted, hloads⟩ := exists_accepted_of_decode h
  rw [hloads.encode, hloads.toPayload]
  cases haccepted with
  | mk six short form groups conditions =>
    have hle := Snapshot.length_write_le form
    have hshort : q.write.length < capacity 4 := Nat.lt_of_le_of_lt hle short
    have hagain := Snapshot.accepted_encode digest hshort groups conditions
    have hloads' := loads_of_accepted hagain
    refine ⟨?_, hshort, _, decode_of_accepted hagain, hloads'.alike_of_loads hloads,
      hloads'.encode digest⟩
    rw [Snapshot.encode_eq, Snapshot.length_frame Snapshot.length_unread (Vector.length_toList ..),
      Snapshot.length_frame six (Vector.length_toList ..)]
    exact Nat.add_le_add_left hle _

/-- A count is wider than it needs, a key is repeated, and another program has used the flags. -/
theorem decode_encode_of_decode_repeated_key :
    let payload : Bytes := [251, 1, 0, 1, 0, 1, 0, 1, 2, 1, 97, 2, 1, 1, 97, 2, 0, 0]
    let bytes := Snapshot.frame [7, 0, 1, 2, 3, 4] payload.length (Blake3.digest payload).toList
      payload
    let r := ofGroup? "" (some ⟨none, [.ofList [("a", .bool false)]], []⟩)
    decode Blake3.digest bytes = .ok r ∧ (r.encode Blake3.digest).length ≤ bytes.length ∧
      r.toPayload.write.length < 0x100000000 ∧
        ∃ r', decode Blake3.digest (r.encode Blake3.digest) = .ok r' ∧ r'.Alike r ∧
          r'.encode Blake3.digest = r.encode Blake3.digest := by
  intro payload bytes r
  have hdecode : decode Blake3.digest bytes = .ok r := by
    rw [decode, Snapshot.decode_frame (by decide) (by decide)]
    rfl
  exact ⟨hdecode, decode_encode_of_decode hdecode⟩

end WhenClause.Rule
