/-!
# Slabs

A slab stores values in numbered slots and hands out a key for each. A key names a slot and the
generation in which it was handed out; taking a value out begins a new generation of the slab, so
no key of a removed value ever matches again, although the slot itself is filled anew by a later
insertion.

Vacant slots are filled again before the slab grows, the slot vacated last first. Which slots are
vacant is kept in a list, and two of the proof fields say that the list names each vacant slot once
and no other. The third says that no entry is of a generation still to come.
-/

namespace WhenClause

namespace Slab

structure Key where
  slot : Nat
  generation : Nat
  deriving DecidableEq, Repr, Inhabited

structure Entry (α : Type) where
  generation : Nat
  value : α

end Slab

structure Slab (α : Type) where
  slots : Array (Option (Slab.Entry α))
  generation : Nat
  vacant : List Nat
  vacant_iff : ∀ i, i ∈ vacant ↔ slots[i]? = some none
  vacant_nodup : vacant.Nodup
  entry_le : ∀ (i : Nat) (e : Slab.Entry α), slots[i]? = some (some e) → e.generation ≤ generation

namespace Slab

variable {α : Type}

def empty : Slab α where
  slots := #[]
  generation := 0
  vacant := []
  vacant_iff := by simp
  vacant_nodup := .nil
  entry_le := by simp

instance : Inhabited (Slab α) := ⟨empty⟩

def get? (s : Slab α) (k : Key) : Option α :=
  match s.slots[k.slot]? with
  | some (some e) => if e.generation = k.generation then some e.value else none
  | _ => none

def contains (s : Slab α) (k : Key) : Bool := (s.get? k).isSome

def nextKey (s : Slab α) : Key := ⟨s.vacant.headD s.slots.size, s.generation⟩

def insert (s : Slab α) (v : α) : Slab α :=
  match h : s.vacant with
  | [] =>
    { slots := s.slots.push (some ⟨s.generation, v⟩)
      generation := s.generation
      vacant := []
      vacant_iff := by
        intro i
        have := s.vacant_iff i
        simp only [h, List.not_mem_nil, false_iff] at this ⊢
        rw [Array.getElem?_push]
        split
        · simp
        · exact this
      vacant_nodup := .nil
      entry_le := by
        intro i e he
        rw [Array.getElem?_push] at he
        split at he
        · cases he
          exact Nat.le_refl _
        · exact s.entry_le i e he }
  | i :: rest =>
    { slots := s.slots.modify i fun _ => some ⟨s.generation, v⟩
      generation := s.generation
      vacant := rest
      vacant_iff := by
        intro j
        have hnodup := s.vacant_nodup
        have hj := s.vacant_iff j
        rw [h] at hj hnodup
        rw [Array.getElem?_modify]
        by_cases hij : i = j
        · subst hij
          simp [(List.nodup_cons.1 hnodup).1]
        · rw [if_neg hij, ← hj]
          simp [Ne.symm hij]
      vacant_nodup := by
        have hnodup := s.vacant_nodup
        rw [h] at hnodup
        exact (List.nodup_cons.1 hnodup).2
      entry_le := by
        intro j e he
        rw [Array.getElem?_modify] at he
        split at he
        · obtain ⟨_, _, heq⟩ := Option.map_eq_some_iff.1 he
          cases heq
          exact Nat.le_refl _
        · exact s.entry_le j e he }

theorem exists_entry_of_contains {s : Slab α} {k : Key} (h : s.contains k = true) :
    ∃ v, s.slots[k.slot]? = some (some ⟨k.generation, v⟩) := by
  unfold contains get? at h
  split at h
  · rename_i e hslot
    split at h
    · rename_i hgeneration
      exact ⟨e.value, by rw [hslot, ← hgeneration]⟩
    · simp at h
  · simp at h

/-- Takes the value of a key out, vacates its slot and begins a new generation. Does nothing if the
key has no value. -/
def erase (s : Slab α) (k : Key) : Slab α :=
  if h : s.contains k then
    { slots := s.slots.modify k.slot fun _ => none
      generation := s.generation + 1
      vacant := k.slot :: s.vacant
      vacant_iff := by
        intro j
        obtain ⟨v, hv⟩ := exists_entry_of_contains h
        rw [Array.getElem?_modify]
        by_cases hj : k.slot = j
        · subst hj
          simp [hv]
        · rw [if_neg hj, ← s.vacant_iff j]
          simp [Ne.symm hj]
      vacant_nodup := by
        obtain ⟨v, hv⟩ := exists_entry_of_contains h
        refine List.nodup_cons.2 ⟨fun hmem => ?_, s.vacant_nodup⟩
        have hvacant := (s.vacant_iff k.slot).1 hmem
        rw [hv] at hvacant
        simp at hvacant
      entry_le := by
        intro j e he
        rw [Array.getElem?_modify] at he
        split at he
        · simp at he
        · exact Nat.le_succ_of_le (s.entry_le j e he) }
  else s

def modify (s : Slab α) (k : Key) (f : α → α) : Slab α :=
  if s.contains k then
    { slots := s.slots.modify k.slot fun entry => entry.map fun e => ⟨e.generation, f e.value⟩
      generation := s.generation
      vacant := s.vacant
      vacant_iff := by
        intro j
        rw [s.vacant_iff j, Array.getElem?_modify]
        by_cases hj : k.slot = j
        · subst hj
          cases s.slots[k.slot]? <;> simp
        · rw [if_neg hj]
      vacant_nodup := s.vacant_nodup
      entry_le := by
        intro j e he
        rw [Array.getElem?_modify] at he
        split at he
        · obtain ⟨entry, hentry, he⟩ := Option.map_eq_some_iff.1 he
          obtain ⟨e', rfl, rfl⟩ := Option.map_eq_some_iff.1 he
          exact s.entry_le j e' hentry
        · exact s.entry_le j e he }
  else s

def keys (s : Slab α) : List Key :=
  (s.slots.toList.zipIdx).filterMap fun p => p.1.map fun e => ⟨p.2, e.generation⟩

def size (s : Slab α) : Nat := s.keys.length

end Slab

end WhenClause
