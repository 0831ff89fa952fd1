import ImageProxy.Cpcl.StreamRuns
import ImageProxy.Library.StepSystem

set_option autoImplicit false

/-! # Clones of an in-memory stream

`Clone` copies the handle. The blocks stay where they are and are held by all clones through a
`shared_ptr`, while `p_size` and `p_offset` are the clone's own. `Write` compares the cursor of its
handle with the size of its handle; that another handle may already have bytes behind this size is
nowhere looked at. -/

namespace ImageProxy

/-! ## The source -/

/-- A `DynamicMemoryStream` without the storage it points to. -/
structure Handle where
  state : Bool
  pSize : ℕ
  pOffset : ℕ
  offset_le : pOffset ≤ pSize

/-- The handles that share one storage, in the order they were made. -/
structure Clones where
  memoryStorage : MemoryStorage
  handles : List Handle
  size_le : ∀ h ∈ handles, h.pSize ≤ memoryStorage.capacity

/-- `Clone` on a handle, or another method. -/
inductive CloneEvent where
  | clone (i : ℕ)
  | call (i : ℕ) (c : StreamCall)

/-- The storage is only ever extended. -/
theorem DynamicMemoryStream.capacity_le_call (s : DynamicMemoryStream) (c : StreamCall) :
    s.memoryStorage.capacity ≤ (s.call c).2.memoryStorage.capacity := by
  cases c with
  | write data hlen =>
      simp only [call, write]
      split_ifs with hend hne
      · exact Nat.le_refl _
      · obtain ⟨-, filler, hbytes⟩ := s.memoryStorage.bytes_write s.pSize _ hne s.size_le
        have hlength := congrArg List.length hbytes
        simp only [List.length_append, List.length_take, List.length_drop,
          MemoryStorage.length_bytes] at hlength
        have hle := s.size_le
        show _ ≤ (s.memoryStorage.write s.pSize (data.take (data.length % 2 ^ 32))).2.capacity
        omega
      · exact Nat.le_refl _
  | read size =>
      simp only [call, read]
      split <;> exact Nat.le_refl _
  | seek moveTo moveMethod =>
      cases moveMethod <;> simp only [call, seek] <;>
        first | exact Nat.le_refl _ | (split_ifs <;> exact Nat.le_refl _)
  | tell => exact Nat.le_refl _
  | size => exact Nat.le_refl _
  | clear => exact Nat.le_refl _

namespace Clones

/-- A stream that was not cloned yet. -/
def of (s : DynamicMemoryStream) : Clones where
  memoryStorage := s.memoryStorage
  handles := [⟨s.state, s.pSize, s.pOffset, s.offset_le⟩]
  size_le := by
    intro h hmem
    rw [List.mem_singleton] at hmem
    rw [hmem]
    exact s.size_le

/-- The stream that the `i`th handle is. -/
def stream (c : Clones) (i : Fin c.handles.length) : DynamicMemoryStream :=
  { c.handles.get i with
    memoryStorage := c.memoryStorage
    size_le := c.size_le _ (List.get_mem _ i) }

/-- `Clone` on the `i`th handle. -/
def clone (c : Clones) (i : Fin c.handles.length) : Clones where
  memoryStorage := c.memoryStorage
  handles := c.handles ++ [c.handles.get i]
  size_le := by
    intro h hmem
    rcases List.mem_append.1 hmem with hmem | hmem
    · exact c.size_le h hmem
    · rw [List.mem_singleton] at hmem
      rw [hmem]
      exact c.size_le _ (List.get_mem _ i)

/-- Another method on the `i`th handle: it is the method of the stream, on the shared storage. -/
def callOn (c : Clones) (i : Fin c.handles.length) (m : StreamCall) : Clones :=
  let s := ((c.stream i).call m).2
  { memoryStorage := s.memoryStorage
    handles := c.handles.set i ⟨s.state, s.pSize, s.pOffset, s.offset_le⟩
    size_le := by
      intro h hmem
      rcases List.mem_or_eq_of_mem_set hmem with hmem | rfl
      · exact Nat.le_trans (c.size_le h hmem) ((c.stream i).capacity_le_call m)
      · exact s.size_le }

/-- One event; `none` if there is no such handle. -/
def step (c : Clones) : CloneEvent → Option Clones
  | .clone i => if h : i < c.handles.length then some (c.clone ⟨i, h⟩) else none
  | .call i m => if h : i < c.handles.length then some (c.callOn ⟨i, h⟩ m) else none

/-- The bytes in `[0, Size())` of the `i`th handle. -/
def content (c : Clones) (i : ℕ) : Bytes :=
  if h : i < c.handles.length then (c.stream ⟨i, h⟩).content else []

/-! ## What an event does to the bytes of a handle -/

theorem content_eq {c : Clones} {i : ℕ} (h : i < c.handles.length) :
    c.content i = (c.stream ⟨i, h⟩).content := dif_pos h

theorem content_clone (c : Clones) (i : Fin c.handles.length) (j : ℕ) :
    c.content j <+: (c.clone i).content j := by
  by_cases hj : j < c.handles.length
  · have hj' : j < (c.clone i).handles.length := by
      rw [clone, List.length_append]
      exact Nat.lt_add_right _ hj
    rw [content_eq hj, content_eq hj']
    have hsame : (c.clone i).handles.get ⟨j, hj'⟩ = c.handles.get ⟨j, hj⟩ :=
      List.getElem_append_left hj
    have hcontent : ((c.clone i).stream ⟨j, hj'⟩).content = (c.stream ⟨j, hj⟩).content :=
      congrArg (fun h : Handle => c.memoryStorage.bytes.take h.pSize) hsame
    exact hcontent ▸ List.prefix_rfl
  · rw [content, dif_neg hj]
    exact List.nil_prefix

theorem length_callOn (c : Clones) (i : Fin c.handles.length) (m : StreamCall) :
    (c.callOn i m).handles.length = c.handles.length := List.length_set ..

/-- The handle that is called is the stream after the call. -/
theorem content_callOn_self (c : Clones) (i : Fin c.handles.length) (m : StreamCall) :
    (c.callOn i m).content i = ((c.stream i).call m).2.content := by
  have hi : (i : ℕ) < (c.callOn i m).handles.length := by
    rw [length_callOn]
    exact i.isLt
  rw [content_eq hi]
  have hhandle : (c.callOn i m).handles.get ⟨i, hi⟩ = ⟨((c.stream i).call m).2.state,
      ((c.stream i).call m).2.pSize, ((c.stream i).call m).2.pOffset,
      ((c.stream i).call m).2.offset_le⟩ := List.getElem_set_self _
  exact congrArg (fun h : Handle =>
    ((c.stream i).call m).2.memoryStorage.bytes.take h.pSize) hhandle

/-- Every other handle has as many bytes as before, of the storage after the call. -/
theorem content_callOn_other (c : Clones) (i : Fin c.handles.length) (m : StreamCall) {j : ℕ}
    (hij : j ≠ i) : (c.callOn i m).content j
      = ((c.stream i).call m).2.memoryStorage.bytes.take (c.content j).length := by
  by_cases hj : j < c.handles.length
  · have hj' : j < (c.callOn i m).handles.length := by
      rw [length_callOn]
      exact hj
    rw [content_eq hj', content_eq hj, DynamicMemoryStream.length_content]
    have hhandle : (c.callOn i m).handles.get ⟨j, hj'⟩ = c.handles.get ⟨j, hj⟩ :=
      List.getElem_set_ne hij.symm _
    exact congrArg (fun h : Handle =>
      ((c.stream i).call m).2.memoryStorage.bytes.take h.pSize) hhandle
  · have hj' : ¬ j < (c.callOn i m).handles.length := by
      rw [length_callOn]
      exact hj
    rw [content, content, dif_neg hj, dif_neg hj']
    rfl

theorem content_eq_take (c : Clones) (j : ℕ) :
    c.content j = c.memoryStorage.bytes.take (c.content j).length := by
  by_cases hj : j < c.handles.length
  · rw [content_eq hj, DynamicMemoryStream.length_content]
    rfl
  · rw [content, dif_neg hj]
    rfl

/-! ## When a call spares the other handles -/

/-- A `Write` that goes through spares what the other handles hold: where another handle has bytes
behind the end of this one, they are the bytes that are written. -/
def Spares (c : Clones) : CloneEvent → Prop
  | .call i (.write data _) => ∀ h : i < c.handles.length,
      (c.stream ⟨i, h⟩).pOffset = (c.stream ⟨i, h⟩).pSize → ∀ j, j ≠ i →
        ((c.content j).drop (c.stream ⟨i, h⟩).pSize).take data.length <+: data
  | _ => True

/-- A string that was written over from its start still begins as before exactly if what it was
written over with begins so. -/
theorem take_overwritten {y : Bytes} (data filler : Bytes) {m : ℕ} (hm : m ≤ y.length) :
    y.take m = (data ++ y.drop data.length ++ filler).take m ↔
      (y.take m).take data.length <+: data := by
  constructor
  · intro h
    rw [h, List.take_take, List.append_assoc, List.take_append_of_le_length (Nat.min_le_left ..)]
    exact List.take_prefix _ _
  · intro h
    have hlen := h.length_le
    rw [List.take_take] at h hlen
    rw [List.length_take] at hlen
    rcases Nat.le_total m data.length with hle | hge
    · -- all of it was written over
      rw [Nat.min_eq_right hle] at h
      rw [List.append_assoc, List.take_append_of_le_length hle]
      refine (List.prefix_of_prefix_length_le h (List.take_prefix m data) ?_).eq_of_length ?_ <;>
        simp only [List.length_take] <;> omega
    · rw [Nat.min_eq_left hge] at h
      have hdata : y.take data.length = data := h.eq_of_length (by rw [List.length_take]; omega)
      conv_rhs => rw [← hdata, List.length_take, Nat.min_eq_left (by omega),
        List.take_append_drop, List.take_append_of_le_length hm]

/-- The same behind a part that stays. -/
theorem take_overwritten_from {x : Bytes} (data filler : Bytes) {p n : ℕ} (hn : n ≤ x.length)
    (hp : p ≤ x.length) :
    x.take n = (x.take p ++ data ++ x.drop (p + data.length) ++ filler).take n ↔
      ((x.take n).drop p).take data.length <+: data := by
  have hlen : (x.take p).length = p := by
    rw [List.length_take]
    omega
  have hlater : n - p ≤ (x.drop p).length := by
    rw [List.length_drop]
    omega
  rw [← List.drop_drop, List.drop_take, ← take_overwritten data filler hlater]
  conv_lhs => lhs; rw [← List.take_append_drop p x]
  have hsplit : ∀ z : Bytes, (x.take p ++ z).take n = (x.take p).take n ++ z.take (n - p) :=
    fun z => by rw [List.take_append, hlen]
  simp only [List.append_assoc, hsplit, List.append_right_inj]

/-- The storage a `Write` at the end leaves. -/
theorem bytes_call_write (s : DynamicMemoryStream) {data : Bytes} (hlen : data.length < 2 ^ 32)
    (hend : s.pOffset = s.pSize) : ∃ filler, (s.call (.write data hlen)).2.memoryStorage.bytes
      = s.memoryStorage.bytes.take s.pSize ++ data
        ++ s.memoryStorage.bytes.drop (s.pSize + data.length) ++ filler := by
  have hall : data.take (data.length % 2 ^ 32) = data := by
    rw [Nat.mod_eq_of_lt hlen, List.take_length]
  simp only [DynamicMemoryStream.call, DynamicMemoryStream.write, hall, hend, ne_eq,
    not_true_eq_false, if_false]
  by_cases hne : data = []
  · refine ⟨[], ?_⟩
    simp [hne]
  · simp only [hne, not_false_eq_true, dif_pos]
    exact (s.memoryStorage.bytes_write s.pSize data hne s.size_le).2

/-- A `Write` leaves what another handle holds as it is exactly if it spares it. -/
theorem content_write_other (c : Clones) (i : Fin c.handles.length) {data : Bytes}
    (hlen : data.length < 2 ^ 32) {j : ℕ} (hij : j ≠ i) :
    c.content j = (c.callOn i (.write data hlen)).content j ↔
      ((c.stream i).pOffset = (c.stream i).pSize →
        ((c.content j).drop (c.stream i).pSize).take data.length <+: data) := by
  have hcapacity := MemoryStorage.length_bytes c.memoryStorage
  have hsize := (c.stream i).size_le
  have hj : (c.content j).length ≤ c.memoryStorage.bytes.length := by
    rw [c.content_eq_take j]
    exact List.length_take_le' _ _
  rw [content_callOn_other c i _ hij]
  by_cases hend : (c.stream i).pOffset = (c.stream i).pSize
  · obtain ⟨filler, hbytes⟩ := bytes_call_write (c.stream i) hlen hend
    have hiff := take_overwritten_from data filler hj
      (hcapacity ▸ hsize : (c.stream i).pSize ≤ c.memoryStorage.bytes.length)
    rw [← c.content_eq_take j] at hiff
    rw [hbytes]
    exact hiff.trans ⟨fun h _ => h, fun h => h hend⟩
  · have hsame : ((c.stream i).call (.write data hlen)).2.memoryStorage = c.memoryStorage := by
      rw [DynamicMemoryStream.call, DynamicMemoryStream.write_notAtEnd _ _ hend]
      rfl
    rw [hsame, ← c.content_eq_take j]
    exact ⟨fun _ h => absurd h hend, fun _ => rfl⟩

/-- Only `Write` changes the storage. -/
theorem memoryStorage_call {s : DynamicMemoryStream} {m : StreamCall}
    (hm : ∀ data hlen, m ≠ .write data hlen) :
    (s.call m).2.memoryStorage = s.memoryStorage := by
  cases m with
  | write data hlen => exact absurd rfl (hm data hlen)
  | read size =>
      simp only [DynamicMemoryStream.call, DynamicMemoryStream.read]
      split <;> rfl
  | seek moveTo moveMethod =>
      cases moveMethod <;> simp only [DynamicMemoryStream.call, DynamicMemoryStream.seek] <;>
        first | rfl | (split_ifs <;> rfl)
  | tell | size | clear => rfl

/-- A handle that is not cleared keeps its bytes through its own calls. -/
theorem content_call_self (s : DynamicMemoryStream) {m : StreamCall} (hm : m ≠ .clear) :
    s.content <+: (s.call m).2.content := by
  cases m with
  | write data hlen =>
      by_cases hend : s.pOffset = s.pSize
      · simp only [DynamicMemoryStream.call, (s.write_atEnd data hlen hend).2.1]
        exact List.prefix_append _ _
      · have hsame : (s.call (.write data hlen)).2.content = s.content :=
          congrArg (fun r => r.2.content) (s.write_notAtEnd data hend)
        exact hsame ▸ List.prefix_rfl
  | read size =>
      have hsame : (s.call (.read size)).2.content = s.content := s.content_read size.toNat
      exact hsame ▸ List.prefix_rfl
  | seek moveTo moveMethod =>
      have hsame : (s.call (.seek moveTo moveMethod)).2.content = s.content :=
        s.content_seek moveTo moveMethod
      exact hsame ▸ List.prefix_rfl
  | tell | size => exact List.prefix_rfl
  | clear => exact absurd rfl hm

/-- What a handle holds after an event that spares the other handles. -/
theorem content_step {c c' : Clones} {e : CloneEvent} (hstep : c.step e = some c')
    (hspares : c.Spares e) {j : ℕ} (hclear : e ≠ .call j .clear) :
    c.content j <+: c'.content j := by
  cases e with
  | clone i =>
      obtain ⟨h, heq⟩ := Option.dite_none_right_eq_some.1 hstep
      cases heq
      exact c.content_clone ⟨i, h⟩ j
  | call i m =>
      obtain ⟨h, heq⟩ := Option.dite_none_right_eq_some.1 hstep
      cases heq
      by_cases hij : j = i
      · -- through its own call a handle only gets longer
        subst hij
        rw [content_callOn_self c ⟨j, h⟩ m, content_eq h]
        refine content_call_self _ fun hm => hclear (by rw [hm])
      · have hij' : j ≠ (⟨i, h⟩ : Fin c.handles.length) := hij
        by_cases hm : ∃ data hlen, m = .write data hlen
        · obtain ⟨data, hlen, rfl⟩ := hm
          have hsame := (content_write_other c ⟨i, h⟩ hlen hij').2 fun hend =>
            hspares h hend j hij
          exact hsame ▸ List.prefix_rfl
        · have hstorage := memoryStorage_call (s := c.stream ⟨i, h⟩) (m := m) fun data hlen heq =>
            hm ⟨data, hlen, heq⟩
          rw [content_callOn_other c ⟨i, h⟩ m hij', hstorage]
          exact (c.content_eq_take j) ▸ List.prefix_rfl

/-! ## Every interleaving -/

/-- In every part of the run, from any state of it on, a handle that is not cleared keeps the bytes it
holds, whatever is called on the others. -/
def KeepsBytes (s : DynamicMemoryStream) (events : List CloneEvent) : Prop :=
  ∀ pre mid post c c', events = pre ++ mid ++ post →
    StepSystem.run step (of s) pre = some c → StepSystem.run step c mid = some c' →
    ∀ j, CloneEvent.call j .clear ∉ mid → c.content j <+: c'.content j

theorem content_run {c c' : Clones} {events : List CloneEvent}
    (hspares : StepSystem.EveryStep step Spares c events)
    (hrun : StepSystem.run step c events = some c') {j : ℕ}
    (hclear : CloneEvent.call j .clear ∉ events) : c.content j <+: c'.content j := by
  induction events generalizing c with
  | nil =>
      cases hrun
      exact List.prefix_rfl
  | cons e events ih =>
      obtain ⟨c₁, hstep, hrest⟩ := StepSystem.run_cons_eq_some.1 hrun
      obtain ⟨hne, hmem⟩ := not_or.1 (mt List.mem_cons.2 hclear)
      exact (content_step hstep hspares.1 (Ne.symm hne)).trans
        (ih (hspares.2 c₁ hstep) hrest hmem)

/-- A call leaves the other handles as long as they are. -/
theorem length_content_callOn_other (c : Clones) (i : Fin c.handles.length) (m : StreamCall) {j : ℕ}
    (hij : j ≠ i) : ((c.callOn i m).content j).length = (c.content j).length := by
  have hle := congrArg List.length (c.content_eq_take j)
  have hgrow := (c.stream i).capacity_le_call m
  have hstorage : (c.stream i).memoryStorage = c.memoryStorage := rfl
  rw [List.length_take] at hle
  rw [← MemoryStorage.length_bytes, ← MemoryStorage.length_bytes, hstorage] at hgrow
  rw [content_callOn_other c i m hij, List.length_take]
  omega

/-- **Clones keep out of each other's bytes exactly if every `Write` spares them.** The handles may be
cloned, moved, written and cleared in any order: each holds what it held, up to its own `Clear`, in the
runs in which no `Write` puts other bytes where another handle has some already. -/
theorem keepsBytes_iff (s : DynamicMemoryStream) (events : List CloneEvent) :
    KeepsBytes s events ↔ StepSystem.EveryStep step Spares (of s) events := by
  constructor
  · -- a `Write` on its own is a part of the run
    intro h
    refine StepSystem.everyStep_iff.2 ?_
    intro pre e post c heq hrun
    cases e with
    | clone i => trivial
    | call i m =>
        cases m with
        | write data hlen =>
            intro hi hend j hij
            have hstep : StepSystem.run step c [.call i (.write data hlen)]
                = some (c.callOn ⟨i, hi⟩ (.write data hlen)) := by
              simp [step, hi]
            have hkeeps := h pre _ post c _ (by simpa using heq) hrun hstep j (by simp)
            have hsame := hkeeps.eq_of_length (c.length_content_callOn_other ⟨i, hi⟩ _ hij).symm
            exact (content_write_other c ⟨i, hi⟩ hlen hij).1 hsame hend
        | read size | seek moveTo moveMethod | tell | size | clear => trivial
  · intro h pre mid post c c' heq hpre hmid j hclear
    refine content_run (StepSystem.everyStep_iff.2 fun pre' e post' s' heq' hrun => ?_) hmid hclear
    refine StepSystem.everyStep_iff.1 h (pre ++ pre') e (post' ++ post) s' ?_ ?_
    · rw [heq, heq']
      simp only [List.append_assoc, List.cons_append]
    · rw [StepSystem.run_append, hpre, Option.bind_some, hrun]

/-- A stream and its clone append in turn. -/
theorem not_keepsBytes_append : ¬ KeepsBytes (.new 2 (by decide))
    [.clone 0, .call 0 (.write [1] (by decide)), .call 1 (.write [2] (by decide))] := by
  intro h
  have hkeeps := h [.clone 0, .call 0 (.write [1] (by decide))]
    [.call 1 (.write [2] (by decide))] [] _ _ rfl rfl rfl 0 (by simp)
  exact absurd hkeeps (by decide +kernel)

end Clones

end ImageProxy
