import Mathlib.Data.List.AList
import Mathlib.Data.Finset.Card
import Mathlib.Data.Finset.Dedup
import ImageProxy.Library.BoundedFifo

set_option autoImplicit false

/-! # The image cache (`image_cache.h`, `image_cache.cpp`)

`ImageCache` keeps a `std::map` from request paths to streams and a `std::queue` of iterators into
that map. `Push` pops the queue once it is longer than `items_cap`, but nothing ever erases from the
map: an iterator that leaves the queue stays behind as a map entry.

A path is a key of any type with decidable equality, a value is a `shared_ptr` (`none` when null) to
a stream. The timed lock is an input of both operations: `locked = false` is the run in which the
lock could not be obtained within its second. -/

namespace ImageProxy

/-- The members of `ImageCache`: `map`, the `queue` of map iterators (an iterator is named by the key
it points at, front of the queue first) and `items_cap`. -/
structure ImageCache (K V : Type) where
  map : AList fun _ : K => Option V
  queue : List K
  itemsCap : ℕ

namespace ImageCache

variable {K V : Type}

/-- `ImageCache::ImageCache`. -/
def new (itemsCap : ℕ) : ImageCache K V := ⟨∅, [], itemsCap⟩

/-- `ImageCache::Push`: queue the iterator and pop the front of an overfull queue. -/
def push (c : ImageCache K V) (v : K) : ImageCache K V :=
  let queue := c.queue ++ [v]
  if queue.length > c.itemsCap then { c with queue := queue.tail } else { c with queue := queue }

variable [DecidableEq K]

/-- `ImageCache::Get`; `fresh` is the stream a miss allocates. -/
def get (c : ImageCache K V) (locked : Bool) (fresh : V) (k : K) : V × Bool :=
  let (item, hit) :=
    if locked then
      match c.map.lookup k with
      | some v => (v, true)
      | none => (none, false)
    else (none, false)
  (item.getD fresh, hit)

/-- `ImageCache::Put`: `map.insert` leaves an existing entry alone, so the branches are a new entry,
which is queued, and an old one, whose value is overwritten. -/
def put (c : ImageCache K V) (locked : Bool) (k : K) (v : Option V) : ImageCache K V :=
  if locked then
    if k ∈ c.map then { c with map := c.map.insert k v }
    else push { c with map := c.map.insert k v } k
  else c

/-! ## What one `Put` does -/

@[simp] theorem itemsCap_put (c : ImageCache K V) (locked : Bool) (k : K) (v : Option V) :
    (c.put locked k v).itemsCap = c.itemsCap := by
  simp only [put, push]
  split_ifs <;> rfl

@[simp] theorem map_put (c : ImageCache K V) (k : K) (v : Option V) :
    (c.put true k v).map = c.map.insert k v := by
  simp only [put, push]
  split_ifs <;> rfl

theorem queue_put_of_mem {c : ImageCache K V} {k : K} (v : Option V) (h : k ∈ c.map) :
    (c.put true k v).queue = c.queue := by
  simp [put, h]

theorem queue_put_of_room {c : ImageCache K V} {k : K} (v : Option V) (h : k ∉ c.map)
    (hroom : c.queue.length < c.itemsCap) : (c.put true k v).queue = c.queue ++ [k] := by
  have hle : ¬ (c.queue ++ [k]).length > c.itemsCap := by simp; omega
  simp only [put, if_true, if_neg h, push, if_neg hle]

theorem get_put (c : ImageCache K V) (fresh : V) (k k' : K) (v : V) :
    (c.put true k (some v)).get true fresh k'
      = if k' = k then (v, true) else c.get true fresh k' := by
  by_cases hk : k' = k
  · subst hk; simp [get]
  · simp [get, hk]

/-! ## Runs -/

/-- A call made on the cache. A `Get` changes nothing; a `Put` stores a stream. A `Put` of a null pointer
is not among the calls: `SendPage`, the one caller, has looked into the stream before. -/
inductive Op (K V : Type) where
  | get (k : K)
  | put (k : K) (v : V)

/-- The call, the lock being obtained. -/
def apply (c : ImageCache K V) : Op K V → ImageCache K V
  | .get _ => c
  | .put k v => c.put true k (some v)

/-- The cache after the calls, from the constructor on. -/
def run (itemsCap : ℕ) (ops : List (Op K V)) : ImageCache K V :=
  ops.foldl apply (new itemsCap)

/-- The same calls on the bounded FIFO cache. -/
def runFifo (cap : ℕ) (ops : List (Op K V)) : BoundedFifo K V :=
  ops.foldl (fun f op => match op with | .get _ => f | .put k v => f.put k v) (BoundedFifo.empty cap)

/-- The keys that were `Put`, with repetitions. -/
def putKeys (ops : List (Op K V)) : List K :=
  ops.filterMap fun op => match op with | .get _ => none | .put k _ => some k

/-- `c` looks like the bounded FIFO cache `f`: no more than `items_cap` keys are held, the queue
lists exactly the held keys in the order of first insertion, and a `Get` of any key is the hit or
miss it is in `f`. -/
structure Refines (c : ImageCache K V) (f : BoundedFifo K V) : Prop where
  size_le : c.map.keys.length ≤ c.itemsCap
  queue_eq : c.queue = f.keys
  held : ∀ k, k ∈ c.map ↔ k ∈ f.keys
  get_eq : ∀ fresh k, c.get true fresh k =
    match f.get k with
    | some v => (v, true)
    | none => (fresh, false)

/-- After every call of the sequence the cache looks like the bounded FIFO cache that received the
same calls. -/
def RefinesFifo (itemsCap : ℕ) (ops : List (Op K V)) : Prop :=
  ∀ pre, pre <+: ops → Refines (run itemsCap pre) (runFifo itemsCap pre)

theorem run_snoc (itemsCap : ℕ) (ops : List (Op K V)) (op : Op K V) :
    run itemsCap (ops ++ [op]) = (run itemsCap ops).apply op := by
  simp [run, List.foldl_append]

omit [DecidableEq K] in
@[simp] theorem putKeys_snoc_get (ops : List (Op K V)) (k : K) :
    putKeys (ops ++ [.get k]) = putKeys ops := by
  simp [putKeys]

omit [DecidableEq K] in
@[simp] theorem putKeys_snoc_put (ops : List (Op K V)) (k : K) (v : V) :
    putKeys (ops ++ [.put k v]) = putKeys ops ++ [k] := by
  simp [putKeys]

/-- The map forgets nothing: it holds every key that was ever `Put`, whatever the capacity. -/
theorem mem_run_map (itemsCap : ℕ) (ops : List (Op K V)) (k : K) :
    k ∈ (run itemsCap ops).map ↔ k ∈ putKeys ops := by
  induction ops using List.reverseRecOn with
  | nil => simp [run, new, putKeys]
  | append_singleton ops op ih =>
      rw [run_snoc]
      cases op with
      | get k' => simpa [apply] using ih
      | put k' v =>
          simp only [apply, map_put, AList.mem_insert, ih, putKeys_snoc_put, List.mem_append,
            List.mem_singleton]
          exact or_comm

theorem run_map_card (itemsCap : ℕ) (ops : List (Op K V)) :
    (run itemsCap ops).map.keys.length = (putKeys ops).toFinset.card := by
  rw [← List.toFinset_card_of_nodup (run itemsCap ops).map.keys_nodup]
  congr 1
  ext k
  rw [List.mem_toFinset, List.mem_toFinset, ← AList.mem_keys, mem_run_map]

theorem run_itemsCap (itemsCap : ℕ) (ops : List (Op K V)) :
    (run itemsCap ops).itemsCap = itemsCap := by
  induction ops using List.reverseRecOn with
  | nil => rfl
  | append_singleton ops op ih =>
      rw [run_snoc]
      cases op with
      | get k => exact ih
      | put k v => simpa [apply] using ih

theorem runFifo_snoc (cap : ℕ) (ops : List (Op K V)) (op : Op K V) :
    runFifo cap (ops ++ [op])
      = match op with | .get _ => runFifo cap ops | .put k v => (runFifo cap ops).put k v := by
  simp [runFifo, List.foldl_append]

theorem runFifo_cap (cap : ℕ) (ops : List (Op K V)) : (runFifo cap ops).cap = cap := by
  induction ops using List.reverseRecOn with
  | nil => rfl
  | append_singleton ops op ih =>
      rw [runFifo_snoc]
      cases op with
      | get k => exact ih
      | put k v => simpa using ih

/-- One more `Put` keeps the refinement, unless it would overfill the cache. -/
theorem Refines.put {c : ImageCache K V} {f : BoundedFifo K V} (h : Refines c f)
    (hcap : f.cap = c.itemsCap) (k : K) (v : V)
    (hroom : k ∈ c.map ∨ c.map.keys.length < c.itemsCap) :
    Refines (c.put true k (some v)) (f.put k v) := by
  by_cases hk : k ∈ c.map
  · have hkf : k ∈ f.keys := (h.held k).1 hk
    have hperm : (c.map.insert k (some v)).keys.length = c.map.keys.length := by
      have hpos : 0 < c.map.keys.length := List.length_pos_of_mem (AList.mem_keys.1 hk)
      rw [AList.keys_insert, List.length_cons, List.length_erase_of_mem (AList.mem_keys.1 hk)]
      omega
    refine ⟨?_, ?_, ?_, ?_⟩
    · rw [map_put, itemsCap_put, hperm]
      exact h.size_le
    · rw [queue_put_of_mem _ hk, BoundedFifo.keys_put_of_mem v hkf, h.queue_eq]
    · intro k'
      rw [map_put, AList.mem_insert, BoundedFifo.keys_put_of_mem v hkf, ← h.held k']
      exact or_iff_right_of_imp fun heq => heq ▸ hk
    · intro fresh k'
      rw [get_put, BoundedFifo.get_put_of_mem k' v hkf]
      split
      · rfl
      · exact h.get_eq fresh k'
  · have hkf : k ∉ f.keys := fun hmem => hk ((h.held k).2 hmem)
    have hsize : c.map.keys.length < c.itemsCap := hroom.resolve_left hk
    -- the map and the queue list the same distinct keys, so they have one length
    have hlen : f.entries.length = c.map.keys.length := by
      have hf : f.keys.toFinset = c.map.keys.toFinset := by
        ext k'
        rw [List.mem_toFinset, List.mem_toFinset, ← AList.mem_keys, h.held]
      have hkeys : f.keys.Nodup := f.nodup
      rw [← List.toFinset_card_of_nodup c.map.keys_nodup, ← hf,
        List.toFinset_card_of_nodup hkeys]
      simp [BoundedFifo.keys]
    have hfroom : f.entries.length < f.cap := by omega
    have hqroom : c.queue.length < c.itemsCap := by
      rw [h.queue_eq]; simp only [BoundedFifo.keys, List.length_map]; omega
    refine ⟨?_, ?_, ?_, ?_⟩
    · have herase : (c.map.keys.erase k).length ≤ c.map.keys.length := List.length_erase_le
      simp only [map_put, AList.keys_insert, List.length_cons, itemsCap_put]
      omega
    · rw [queue_put_of_room _ hk hqroom, BoundedFifo.keys_put_of_room v hkf hfroom, h.queue_eq]
    · intro k'
      rw [map_put, AList.mem_insert, BoundedFifo.keys_put_of_room v hkf hfroom, List.mem_append,
        List.mem_singleton, h.held, or_comm]
    · intro fresh k'
      rw [get_put, BoundedFifo.get_put_of_room k' v hkf hfroom]
      split
      · rfl
      · exact h.get_eq fresh k'

/-- While no more than `items_cap` distinct keys have been `Put`, nothing was ever evicted and the
cache is a bounded FIFO cache. -/
theorem refines_of_card_le (itemsCap : ℕ) (ops : List (Op K V))
    (hcard : (putKeys ops).toFinset.card ≤ itemsCap) :
    Refines (run itemsCap ops) (runFifo itemsCap ops) := by
  induction ops using List.reverseRecOn with
  | nil =>
      exact ⟨Nat.zero_le _, rfl, fun k => by simp [run, new, runFifo, BoundedFifo.empty,
        BoundedFifo.keys], fun fresh k => by simp [run, new, get, runFifo, BoundedFifo.empty,
        BoundedFifo.get]⟩
  | append_singleton ops op ih =>
      rw [run_snoc, runFifo_snoc]
      cases op with
      | get k => exact ih (by simpa using hcard)
      | put k v =>
          rw [putKeys_snoc_put, List.toFinset_append] at hcard
          have hle : (putKeys ops).toFinset.card ≤ itemsCap :=
            (Finset.card_le_card Finset.subset_union_left).trans hcard
          refine (ih hle).put ?_ k v ?_
          · rw [runFifo_cap, run_itemsCap]
          · rw [mem_run_map, run_map_card, run_itemsCap]
            by_cases hk : k ∈ putKeys ops
            · exact Or.inl hk
            · refine Or.inr (lt_of_lt_of_le ?_ hcard)
              apply Finset.card_lt_card
              rw [Finset.ssubset_iff_of_subset Finset.subset_union_left]
              exact ⟨k, by simp, by simpa using hk⟩

theorem putKeys_subset {pre ops : List (Op K V)} (h : pre <+: ops) :
    (putKeys pre).toFinset ⊆ (putKeys ops).toFinset := by
  intro k hk
  rw [List.mem_toFinset] at hk ⊢
  exact (h.filterMap _).subset hk

/-- **The cache is a bounded FIFO cache exactly as long as no more than `items_cap` distinct keys are
`Put`.** Beyond that the queue forgets its front while the map keeps the entry. -/
theorem refinesFifo_iff (itemsCap : ℕ) (ops : List (Op K V)) :
    RefinesFifo itemsCap ops ↔ (putKeys ops).toFinset.card ≤ itemsCap := by
  constructor
  · intro h
    have hsize := (h ops List.prefix_rfl).size_le
    rwa [run_map_card, run_itemsCap] at hsize
  · intro hcard pre hpre
    exact refines_of_card_le itemsCap pre
      ((Finset.card_le_card (putKeys_subset hpre)).trans hcard)

/-- With room for one entry, two keys are both held: the first `Put` is still a hit. -/
theorem not_refinesFifo_two_keys :
    ¬ RefinesFifo 1 ([.put 0 10, .put 1 11] : List (Op ℕ ℕ)) ∧
      (run 1 ([.put 0 10, .put 1 11] : List (Op ℕ ℕ))).get true 99 0 = (10, true) := by
  refine ⟨fun h => ?_, by decide⟩
  have hsize := (h _ List.prefix_rfl).size_le
  exact absurd hsize (by decide)

end ImageCache

end ImageProxy
