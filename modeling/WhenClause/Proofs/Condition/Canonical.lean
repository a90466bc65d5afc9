import WhenClause.Notation.Printer
import WhenClause.Proofs.Condition.Listing
import WhenClause.Proofs.Notation.Completeness
import WhenClause.Proofs.Snapshot.Reading
import WhenClause.Proofs.Utf8.Order

/-!
# Conditions as finite maps

All that a condition remembers of the calls that have edited it is the last value that each key was
given and not relieved of. It lists its keys in the order of their bytes, so whatever else told two
histories apart is gone from the listing, from the text and from the bytes of a condition. Texts
and bytes list attributes as a history does: the last value of a repeated key counts, and the keys
may stand in any order.
-/

namespace WhenClause.Condition

/-- The calls that edit a condition: a value is put in place, or put in place with the former one
handed back, or taken out. -/
inductive Call where
  | insert (key : String) (value : Value)
  | set (key : String) (value : Value)
  | remove (key : String)
  deriving DecidableEq, Repr

namespace Call

def key : Call → String
  | insert key _ | set key _ | remove key => key

def value? : Call → Option Value
  | insert _ value | set _ value => some value
  | remove _ => none

def reports : Call → Bool
  | insert .. => false
  | set .. | remove .. => true

end Call

def call (c : Condition) : Call → Option Value × Condition
  | .insert key value => (none, c.insert key value)
  | .set key value => c.set key value
  | .remove key => c.remove key

def after (c : Condition) (calls : List Call) : Condition :=
  calls.foldl (fun c call => (c.call call).2) c

def reported (c : Condition) : List Call → List (Option Value)
  | [] => []
  | call :: calls => (c.call call).1 :: (c.call call).2.reported calls

def Latest (calls : List Call) (key : String) (value : Value) : Prop :=
  ∃ earlier call later, calls = earlier ++ call :: later ∧ call.key = key ∧
    call.value? = some value ∧ ∀ other ∈ later, other.key ≠ key

/-- The value comes from the last call for the key, or was there before and no call is for it. -/
def Leaves (c : Condition) (calls : List Call) (key : String) (value : Value) : Prop :=
  Latest calls key value ∨ c.get? key = some value ∧ ∀ call ∈ calls, call.key ≠ key

variable {c : Condition} {calls : List Call} {key : String} {value : Value}

/-! ## What a call leaves -/

theorem get?_call (c : Condition) (call : Call) (key : String) :
    (c.call call).2.get? key = if key = call.key then call.value? else c.get? key := by
  cases call with
  | insert | set => exact get?_insert ..
  | remove => exact get?_erase ..

theorem fst_call {call : Call} (h : call.reports = true) (c : Condition) :
    (c.call call).1 = c.get? call.key := by
  cases call with
  | insert => cases h
  | set | remove => rfl

theorem latest_cons {call : Call} :
    Latest (call :: calls) key value ↔ Latest calls key value ∨
      (call.key = key ∧ call.value? = some value) ∧ ∀ other ∈ calls, other.key ≠ key := by
  constructor
  · rintro ⟨earlier, last, later, hsplit, hkey, hvalue, hlater⟩
    rcases List.cons_eq_append_iff.1 hsplit with ⟨rfl, hlast⟩ | ⟨earlier, rfl, hcalls⟩
    · obtain ⟨rfl, rfl⟩ := List.cons.inj hlast
      exact .inr ⟨⟨hkey, hvalue⟩, hlater⟩
    · exact .inl ⟨earlier, last, later, hcalls, hkey, hvalue, hlater⟩
  · rintro (⟨earlier, last, later, rfl, hlast⟩ | ⟨⟨hkey, hvalue⟩, hlater⟩)
    · exact ⟨call :: earlier, last, later, rfl, hlast⟩
    · exact ⟨[], call, calls, rfl, hkey, hvalue, hlater⟩

theorem leaves_cons {call : Call} :
    c.Leaves (call :: calls) key value ↔ (c.call call).2.Leaves calls key value := by
  simp only [Leaves, latest_cons, get?_call, List.forall_mem_cons]
  by_cases h : key = call.key
  · simp [h]
  · simp [h, Ne.symm h]

theorem leaves_empty : empty.Leaves calls key value ↔ Latest calls key value := by
  simp [Leaves]

theorem get?_after : (c.after calls).get? key = some value ↔ c.Leaves calls key value := by
  induction calls generalizing c with
  | nil => simp [after, Leaves, Latest]
  | cons call calls ih =>
    -- The first call counts as made before, so that it has changed the condition to start from.
    rw [leaves_cons, ← ih, after, List.foldl_cons, after]

theorem getElem?_reported (c : Condition) (earlier : List Call) (call : Call) (later : List Call) :
    (c.reported (earlier ++ call :: later))[earlier.length]? =
      some ((c.after earlier).call call).1 := by
  induction earlier generalizing c with
  | nil => rfl
  | cons first earlier ih =>
    rw [List.cons_append, reported, List.length_cons, List.getElem?_cons_succ, ih]
    rfl

/-! ## How attributes are listed -/

theorem mem_attributes : (key, value) ∈ c.attributes ↔ c.get? key = some value := by
  constructor
  · exact fun h => Attributes.lookup_of_mem c.ordered h
  · intro h
    obtain ⟨front, back, hsplit, _⟩ := List.lookup_eq_some_iff.1 h
    rw [hsplit]
    exact List.mem_append_right _ (List.mem_cons_self ..)

theorem nodup_keys (c : Condition) : (c.attributes.map Prod.fst).Nodup :=
  List.pairwise_map.2 (c.ordered.imp String.ne_of_lt)

/-- What a condition tells about the calls that it has taken. -/
structure Remembers (c : Condition) (calls : List Call) : Prop where
  get : ∀ key value, (c.after calls).get? key = some value ↔ c.Leaves calls key value
  reports : ∀ earlier call later, calls = earlier ++ call :: later → call.reports = true →
    ∃ former, (c.reported calls)[earlier.length]? = some former ∧
      ∀ value, former = some value ↔ c.Leaves earlier call.key value
  listed : ∀ key value, (key, value) ∈ (c.after calls).attributes ↔ c.Leaves calls key value
  once : ((c.after calls).attributes.map Prod.fst).Nodup
  inOrder : (c.after calls).attributes.Pairwise fun a b =>
    Utf8.encode a.1.toList < Utf8.encode b.1.toList

theorem remembers (c : Condition) (calls : List Call) : c.Remembers calls where
  get _ _ := get?_after
  reports := by
    rintro earlier call later rfl h
    refine ⟨_, getElem?_reported c earlier call later, fun value => ?_⟩
    rw [fst_call h, get?_after]
  listed _ _ := mem_attributes.trans get?_after
  once := nodup_keys _
  inOrder := (c.after calls).ordered.imp fun hlt => Utf8.encode_lt_of_lt (String.lt_iff.1 hlt)

structure WrittenAlike (c d : Condition) : Prop where
  listing : c.attributes = d.attributes
  text : c.text = d.text
  bytes : Snapshot.writeCondition c = Snapshot.writeCondition d

theorem writtenAlike_after {d : Condition} {calls' : List Call}
    (h : ∀ key value, c.Leaves calls key value ↔ d.Leaves calls' key value) :
    WrittenAlike (c.after calls) (d.after calls') := by
  have hsame : c.after calls = d.after calls' := by
    refine ext_get? fun key => Option.ext fun value => ?_
    rw [get?_after, get?_after, h]
  rw [hsame]
  exact ⟨rfl, rfl, rfl⟩

/-! ## Attributes that are read -/

/-- Under each key both lists have the same values in the same order; how the keys take turns is
left open. -/
def Reordered (as bs : List (String × Value)) : Prop :=
  ∀ key, as.filter (·.1 = key) = bs.filter (·.1 = key)

theorem lookup_eq_find? (as : List (String × Value)) (key : String) :
    as.lookup key = (as.find? (·.1 = key)).map Prod.snd := by
  induction as with
  | nil => rfl
  | cons a as ih =>
    rw [Attributes.lookup_cons, ih, List.find?_cons]
    by_cases h : a.1 = key
    · simp [h]
    · simp [h, Ne.symm h]

theorem ofList_eq_of_reordered {as bs : List (String × Value)} (h : Reordered as bs) :
    ofList as = ofList bs := by
  -- The value that counts is the first one of its key in the reversed list.
  refine ext_get? fun key => ?_
  simp only [get?_ofList, lookup_eq_find?, ← List.head?_filter, List.filter_reverse, h key]

/-- Both lists make one condition, wherever and however they are spelled, in texts or in bytes. -/
structure ReadAlike (as bs : List (String × Value)) : Prop where
  text : ∀ {s rest s' rest' : List Char}, Grammar.Attributes Grammar.Numeral s as rest →
    Grammar.Attributes Grammar.Numeral s' bs rest' →
      ∃ c, Notation.attributes .empty s = .ok (c, rest) ∧
        Notation.attributes .empty s' = .ok (c, rest')
  bytes : ∀ {x y : Bytes}, Snapshot.Wire.Counted Snapshot.Wire.AttributeForm as x →
    Snapshot.Wire.Counted Snapshot.Wire.AttributeForm bs y → ∀ rest rest',
      ∃ c, Snapshot.Reader.condition (x ++ rest) = .ok (c, rest) ∧
        Snapshot.Reader.condition (y ++ rest') = .ok (c, rest')

theorem attributes_of_spelled {s rest : List Char} {as : List (String × Value)}
    (h : Grammar.Attributes Grammar.Numeral s as rest) :
    Notation.attributes .empty s = .ok (ofList as, rest) :=
  Notation.attributes_of_attributes h rfl .empty

theorem condition_of_counted {x : Bytes} {as : List (String × Value)}
    (h : Snapshot.Wire.Counted Snapshot.Wire.AttributeForm as x) (rest : Bytes) :
    Snapshot.Reader.condition (x ++ rest) = .ok (ofList as, rest) :=
  (Snapshot.Reader.reads_condition (ofList as) rest).2 ⟨x, rfl, .mk h (get?_ofList as)⟩

theorem readAlike {as bs : List (String × Value)} (h : Reordered as bs) : ReadAlike as bs where
  text hs hs' := by
    refine ⟨_, attributes_of_spelled hs, ?_⟩
    rw [ofList_eq_of_reordered h, attributes_of_spelled hs']
  bytes hx hy rest rest' := by
    refine ⟨_, condition_of_counted hx rest, ?_⟩
    rw [ofList_eq_of_reordered h, condition_of_counted hy]

/-! ## The map -/

/-- A condition is the map that its history leaves and nothing beyond that, and so it is to all who
write or read conditions. -/
theorem canonical_map (c : Condition) (calls : List Call) :
    c.Remembers calls ∧
      (∀ key value, empty.Leaves calls key value ↔ Latest calls key value) ∧
      (∀ (d : Condition) (calls' : List Call),
        (∀ key value, c.Leaves calls key value ↔ d.Leaves calls' key value) →
          WrittenAlike (c.after calls) (d.after calls')) ∧
      ∀ as bs, Reordered as bs → ReadAlike as bs :=
  ⟨remembers c calls, fun _ _ => leaves_empty, fun _ _ h => writtenAlike_after h,
    fun _ _ h => readAlike h⟩

/-- One history overwrites a key and takes it out before it is set again, the other one sets each
key once; one list puts a key between two values of another key, the other one behind them. -/
theorem canonical_map_two_histories :
    let calls : List Call := [.insert "b" (.bool true), .set "b" (.int 1), .set "a" (.int 0),
      .remove "b", .set "b" (.int 2)]
    let calls' : List Call := [.set "b" (.int 2), .insert "a" (.int 0)]
    let as := [("b", .int 1), ("a", .int 0), ("b", .int 2)]
    let bs := [("b", .int 1), ("b", .int 2), ("a", .int 0)]
    (empty.after calls).attributes = [("a", .int 0), ("b", .int 2)] ∧
      empty.reported calls = [none, some (.bool true), none, some (.int 1), none] ∧
      empty.Remembers calls ∧ WrittenAlike (empty.after calls) (empty.after calls') ∧
      ReadAlike as bs ∧
      Notation.attributes .empty "b: 1, a: 0, b: 2 \x7d".toList = .ok (ofList bs, []) ∧
      Snapshot.Reader.condition [3, 1, 98, 0, 2, 1, 98, 0, 4, 1, 97, 0, 0] =
        .ok (ofList as, []) := by
  intro calls calls' as bs
  obtain ⟨hremembers, -, halike, hread⟩ := canonical_map empty calls
  have hsame : empty.after calls = empty.after calls' := by decide
  refine ⟨by decide, by decide, hremembers, halike _ calls' fun key value => ?_,
    hread as bs fun key => ?_, by decide +kernel, by rfl⟩
  · rw [← get?_after, ← get?_after, hsame]
  · by_cases hb : "b" = key
    · subst hb
      rfl
    · simp [as, bs, List.filter_cons, hb]

end WhenClause.Condition
