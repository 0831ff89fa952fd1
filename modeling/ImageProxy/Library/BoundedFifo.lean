import Mathlib.Data.List.Nodup

set_option autoImplicit false

/-! # Bounded first-in first-out cache

The abstract cache: at most `cap` entries under distinct keys, listed in the order their keys were
first inserted. Inserting a new key into a full cache drops the oldest entry; inserting a key that is
held replaces its value and keeps its place. -/

/-- A bounded FIFO cache; an overfull cache or one with a repeated key cannot be built. -/
structure BoundedFifo (K V : Type) where
  cap : ℕ
  /-- Oldest entry first. -/
  entries : List (K × V)
  nodup : (entries.map Prod.fst).Nodup
  length_le : entries.length ≤ cap

namespace BoundedFifo

variable {K V : Type}

/-- The held keys, oldest first. -/
def keys (f : BoundedFifo K V) : List K := f.entries.map Prod.fst

/-- The cache that holds nothing. -/
def empty (cap : ℕ) : BoundedFifo K V := ⟨cap, [], by simp, by simp⟩

variable [DecidableEq K]

/-- Give key `k` the value `v`, in place. -/
def replaceEntry (k : K) (v : V) (e : K × V) : K × V := if e.1 = k then (e.1, v) else e

theorem map_fst_replaceEntry (k : K) (v : V) (l : List (K × V)) :
    (l.map (replaceEntry k v)).map Prod.fst = l.map Prod.fst := by
  rw [List.map_map]
  apply List.map_congr_left
  intro e _
  simp only [Function.comp_apply, replaceEntry]
  split <;> rfl

/-- The entries after the oldest one is dropped if there are more than `cap`. -/
def evict (cap : ℕ) (l : List (K × V)) : List (K × V) := if l.length > cap then l.tail else l

def put (f : BoundedFifo K V) (k : K) (v : V) : BoundedFifo K V :=
  if h : k ∈ f.keys then
    { f with
      entries := f.entries.map (replaceEntry k v)
      nodup := by rw [map_fst_replaceEntry]; exact f.nodup
      length_le := by simpa using f.length_le }
  else
    { f with
      entries := evict f.cap (f.entries ++ [(k, v)])
      nodup := by
        have hall : ((f.entries ++ [(k, v)]).map Prod.fst).Nodup := by
          rw [List.map_append]
          exact f.nodup.append (List.nodup_singleton k) (List.disjoint_singleton.2 h)
        unfold evict
        split
        · exact hall.sublist ((List.tail_sublist _).map Prod.fst)
        · exact hall
      length_le := by
        have := f.length_le
        unfold evict
        split <;> simp at * <;> omega }

/-- The value held under `k`, if any. -/
def get (f : BoundedFifo K V) (k : K) : Option V := f.entries.lookup k

@[simp] theorem cap_put (f : BoundedFifo K V) (k : K) (v : V) : (f.put k v).cap = f.cap := by
  unfold put; split <;> rfl

theorem keys_put_of_mem {f : BoundedFifo K V} {k : K} (v : V) (h : k ∈ f.keys) :
    (f.put k v).keys = f.keys := by
  simp only [put, dif_pos h]
  exact map_fst_replaceEntry k v f.entries

theorem entries_put_of_room {f : BoundedFifo K V} {k : K} (v : V) (h : k ∉ f.keys)
    (hroom : f.entries.length < f.cap) : (f.put k v).entries = f.entries ++ [(k, v)] := by
  simp only [put, dif_neg h, evict]
  exact if_neg (by simp; omega)

theorem keys_put_of_room {f : BoundedFifo K V} {k : K} (v : V) (h : k ∉ f.keys)
    (hroom : f.entries.length < f.cap) : (f.put k v).keys = f.keys ++ [k] := by
  simp [keys, entries_put_of_room v h hroom]

theorem lookup_map_replaceEntry (k k' : K) (v : V) (l : List (K × V)) (h : k ∈ l.map Prod.fst) :
    (l.map (replaceEntry k v)).lookup k' = if k' = k then some v else l.lookup k' := by
  induction l with
  | nil => simp at h
  | cons e rest ih =>
      obtain ⟨a, b⟩ := e
      simp only [List.map_cons, replaceEntry]
      by_cases hak : a = k
      · subst hak
        by_cases hk' : k' = a
        · subst hk'; simp
        · have hbeq : (k' == a) = false := by simpa using hk'
          rw [if_pos rfl, if_neg hk', List.lookup_cons, List.lookup_cons, hbeq]
          by_cases hmem : a ∈ rest.map Prod.fst
          · simpa [hk'] using ih hmem
          · have hid : ∀ e ∈ rest, replaceEntry a v e = e := by
              intro e he
              have hne : e.1 ≠ a := fun heq => hmem (heq ▸ List.mem_map_of_mem he)
              simp [replaceEntry, hne]
            rw [List.map_congr_left hid, List.map_id']
      · have hrest : k ∈ rest.map Prod.fst := by simpa [Ne.symm hak] using h
        rw [if_neg hak, List.lookup_cons, List.lookup_cons, ih hrest]
        by_cases hk' : k' = k
        · subst hk'
          have hbeq : (k' == a) = false := by simpa using fun hh : k' = a => hak hh.symm
          simp [hbeq]
        · rw [if_neg hk', if_neg hk']

theorem get_put_of_mem {f : BoundedFifo K V} {k : K} (k' : K) (v : V) (h : k ∈ f.keys) :
    (f.put k v).get k' = if k' = k then some v else f.get k' := by
  simp only [put, dif_pos h, get]
  exact lookup_map_replaceEntry k k' v f.entries h

theorem get_put_of_room {f : BoundedFifo K V} {k : K} (k' : K) (v : V) (h : k ∉ f.keys)
    (hroom : f.entries.length < f.cap) :
    (f.put k v).get k' = if k' = k then some v else f.get k' := by
  rw [get, entries_put_of_room v h hroom, List.lookup_append, get]
  by_cases hk' : k' = k
  · subst hk'
    have hnone : f.entries.lookup k' = none := by
      rw [List.lookup_eq_none_iff]
      intro e he
      simpa using fun heq : k' = e.1 => h (heq ▸ List.mem_map_of_mem he)
    simp [hnone]
  · have hbeq : (k' == k) = false := by simpa using hk'
    simp [hk', List.lookup_cons, hbeq]

end BoundedFifo
