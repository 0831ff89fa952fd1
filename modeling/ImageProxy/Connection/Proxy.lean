import Mathlib.Data.List.Induction
import ImageProxy.Connection.Footprint

set_option autoImplicit false

/-! # The connections of a process

Any number of connections run at a time. They share what their constructor is given, the cache and
the task pool, and the cache hands the stream of one connection to another. In what order their
handlers run is up to the sockets, so a run is a list of turns.

A stream has one writer at a time, and one that is in the cache has none (`Inv`). So the cache never
shows a file that is still being read or written over, and what a client is shown under a path has
been read from a server, to the end, by a connection whose client had asked for that path
(`documents_fetched`). -/

namespace ImageProxy

open Ascii Cpcl Http

/-- The connections, each as its last turn left it, and what they share: the streams and the cache
as they are now. -/
structure Proxy where
  host : Bytes
  port : Bytes
  pixfmts : List ℕ
  conns : List Sys
  streams : Streams
  nextStream : StreamId
  cache : ImageCache Bytes StreamId

namespace Proxy

/-- What can happen: a connection is constructed and started, an operation of the connection `i`
completes, or the task pool is stopped. -/
inductive Event where
  | accept (buffer : Buffer)
  | turn (i : ℕ) (e : Sys.Event)
  | stop

/-- The connection finds what the others have left. -/
def join (P : Proxy) (s : Sys) : Sys :=
  { s with streams := P.streams, nextStream := P.nextStream, cache := P.cache }

/-- The connection `i`, at its turn. -/
def view (P : Proxy) (i : ℕ) : Option Sys := P.conns[i]?.map P.join

/-- The connection `i` leaves what it has done. -/
def put (P : Proxy) (i : ℕ) (s : Sys) : Proxy :=
  { P with
    conns := P.conns.set i s
    streams := s.streams
    nextStream := s.nextStream
    cache := s.cache }

def step (P : Proxy) : Event → Option Proxy
  | .accept buffer =>
      let s := Sys.init P.host P.port buffer P.streams P.nextStream P.cache P.pixfmts
      some { P with
        conns := P.conns ++ [s]
        streams := s.streams
        nextStream := s.nextStream
        cache := s.cache }
  | .turn i e =>
      if e.isCompletion then ((P.view i).bind fun s => s.step e).map (P.put i) else none
  | .stop => some { P with conns := P.conns.map fun s => { s with stopped := true } }

/-- No connection yet, and nothing in the cache. -/
def init (host port : Bytes) (pixfmts : List ℕ) (itemsCap : ℕ) : Proxy where
  host := host
  port := port
  pixfmts := pixfmts
  conns := []
  streams := fun _ => DynamicMemoryStream.fresh
  nextStream := 0
  cache := ImageCache.new itemsCap

/-- Nobody writes to the stream, and nobody is going to. -/
def Sealed (P : Proxy) (id : StreamId) : Prop :=
  id < P.nextStream ∧ ∀ s ∈ P.conns, ¬s.Owns id

/-- A connection whose client asked for the path has handed the bytes to `LoadDoc`. -/
def Loaded (P : Proxy) (k d : Bytes) : Prop :=
  ∃ s ∈ P.conns, s.requested.head? = some k ∧ d ∈ s.documents

/-- What holds whatever the order of the turns. -/
structure Inv (P : Proxy) : Prop where
  conn : ∀ s ∈ P.conns, s.Inv
  local' : ∀ s ∈ P.conns, s.Local
  owned : ∀ s ∈ P.conns, ∀ id, s.Owns id → id < P.nextStream
  disjoint : ∀ (i j : ℕ) (s t : Sys), P.conns[i]? = some s → P.conns[j]? = some t →
    ∀ id, s.Owns id → t.Owns id → i = j
  noNull : P.cache.NoNull
  sealed : ∀ k id, P.cache.Holds k id → P.Sealed id
  loaded : ∀ k id, P.cache.Holds k id → P.Loaded k (P.streams id).content

/-- The bytes `d` have been fetched in the run: a connection whose client asked for `k` read the end
of a file, and the stream that it read to had them. -/
def Fetched (P₀ : Proxy) (es : List Event) (k d : Bytes) : Prop :=
  ∃ before after i ec data a P s, es = before ++ .turn i (.readResponse ec data a) :: after ∧
    StepSystem.run step P₀ before = some P ∧ P.view i = some s ∧ s.requested.head? = some k ∧
    s.Arrives data d

variable {P P' : Proxy} {e : Event}

/-! ## A turn -/

theorem step_turn {i : ℕ} {e : Sys.Event} (h : P.step (.turn i e) = some P') :
    ∃ s s', P.conns[i]? = some s ∧ e.isCompletion = true ∧ (P.join s).step e = some s' ∧
      P' = P.put i s' := by
  simp only [step] at h
  split at h
  · next hcompletion =>
      obtain ⟨s', hbind, rfl⟩ := Option.map_eq_some_iff.1 h
      obtain ⟨t, hview, hstep⟩ := Option.bind_eq_some_iff.1 hbind
      obtain ⟨s, hs, rfl⟩ := Option.map_eq_some_iff.1 hview
      exact ⟨s, s', hs, hcompletion, hstep, rfl⟩
  · exact absurd h (by simp)

theorem mem_put {i : ℕ} {s' t : Sys} (ht : t ∈ (P.put i s').conns) : t = s' ∨ t ∈ P.conns :=
  (List.mem_or_eq_of_mem_set ht).symm

theorem sound_join (h : Inv P) {s : Sys} (hs : s ∈ P.conns) : (P.join s).Sound where
  inv :=
    have hinv := h.conn s hs
    ⟨hinv.pending, hinv.sent, hinv.unanswered, hinv.answered, hinv.accepted, hinv.image,
      hinv.clientError⟩
  local' :=
    have hlocal := h.local' s hs
    ⟨hlocal.upstream, hlocal.request⟩
  noNull := h.noNull
  held k id hk := (h.sealed k id hk).1
  owned := h.owned s hs

/-- What the connection `i` and its streams have become in a turn. -/
structure Turned (P : Proxy) (i : ℕ) (s s' : Sys) (own : Option StreamId) (shown : Bytes → Prop) :
    Prop where
  conn : P.conns[i]? = some s
  inv : s'.Inv
  owns : ∀ id, own = some id → s.Owns id
  served : Sys.Served own shown (P.join s) s'

theorem Inv.turned (h : Inv P) {i : ℕ} {e : Sys.Event} (hstep : P.step (.turn i e) = some P') :
    ∃ s s' own, Turned P i s s' own (e.Shows (P.join s)) ∧ P' = P.put i s' := by
  obtain ⟨s, s', hs, hcompletion, hconn, rfl⟩ := step_turn hstep
  have hsound := sound_join h (List.mem_of_getElem? hs)
  obtain ⟨own, hown, hserved⟩ := Sys.step_served hsound hcompletion hconn
  exact ⟨s, s', own, ⟨hs, Sys.step_inv _ _ _ hsound.inv hconn, hown, hserved⟩, rfl⟩

variable {i : ℕ} {s s' : Sys} {own : Option StreamId} {shown : Bytes → Prop}

/-- A sealed stream stays sealed, and keeps its content. -/
theorem Turned.keeps (ht : Turned P i s s' own shown) {id : StreamId} (hid : P.Sealed id) :
    (P.put i s').Sealed id ∧ (s'.streams id).content = (P.streams id).content := by
  obtain ⟨hlt, hfree⟩ := hid
  have hmem := List.mem_of_getElem? ht.conn
  have hne : own ≠ some id := fun heq => hfree s hmem (ht.owns id heq)
  refine ⟨⟨Nat.lt_of_lt_of_le hlt ht.served.nextStream, fun t hin howns => ?_⟩,
    ht.served.content id hlt hne⟩
  rcases mem_put hin with rfl | hin
  · rcases ht.served.owns id howns with heq | ⟨hle, -⟩
    · exact hne heq
    · exact absurd hlt (Nat.not_lt.2 hle)
  · exact hfree t hin howns

/-- What has been loaded has been loaded. -/
theorem Turned.loaded (ht : Turned P i s s' own shown) {k d : Bytes} (hd : P.Loaded k d) :
    (P.put i s').Loaded k d := by
  obtain ⟨t, hin, hk, hdoc⟩ := hd
  obtain ⟨j, hj⟩ := List.mem_iff_getElem?.1 hin
  have hi : i < P.conns.length := (List.getElem?_eq_some_iff.1 ht.conn).1
  by_cases hij : i = j
  · subst hij
    obtain rfl : s = t := Option.some.inj (ht.conn.symm.trans hj)
    exact ⟨s', List.mem_set hi s', Sys.head?_of_prefix ht.served.requested hk,
      ht.served.documents.subset hdoc⟩
  · refine ⟨t, List.mem_of_getElem? (i := j) ?_, hk, hdoc⟩
    rw [put, List.getElem?_set_ne hij, hj]

theorem Turned.disjoint (h : Inv P) (ht : Turned P i s s' own shown) {j : ℕ} {t : Sys}
    (hj : P.conns[j]? = some t) {id : StreamId} (hs' : s'.Owns id) (hid : t.Owns id) : i = j := by
  rcases ht.served.owns id hs' with heq | ⟨hle, -⟩
  · exact h.disjoint i j s t ht.conn hj id (ht.owns id heq) hid
  · exact absurd (h.owned t (List.mem_of_getElem? hj) id hid) (Nat.not_lt.2 hle)

theorem Turned.put_inv (h : Inv P) (ht : Turned P i s s' own shown) : Inv (P.put i s') where
  conn t hin := by
    rcases mem_put hin with rfl | hin
    · exact ht.inv
    · exact h.conn t hin
  local' t hin := by
    rcases mem_put hin with rfl | hin
    · exact ht.served.local'
    · exact h.local' t hin
  owned t hin id hid := by
    rcases mem_put hin with rfl | hin
    · rcases ht.served.owns id hid with heq | ⟨-, hlt⟩
      · exact Nat.lt_of_lt_of_le (h.owned s (List.mem_of_getElem? ht.conn) id (ht.owns id heq))
          ht.served.nextStream
      · exact hlt
    · exact Nat.lt_of_lt_of_le (h.owned t hin id hid) ht.served.nextStream
  disjoint j l t u hj hl id htid huid := by
    -- of two that own a stream, at most one has had the turn
    have hi : i < P.conns.length := (List.getElem?_eq_some_iff.1 ht.conn).1
    simp only [put, List.getElem?_set, hi, if_true] at hj hl
    split at hj <;> split at hl
    · next hij hil => exact hij.symm.trans hil
    · next hij _ =>
        cases hj
        exact hij.symm.trans (ht.disjoint h hl htid huid)
    · next _ hil =>
        cases hl
        exact (ht.disjoint h hj huid htid).symm.trans hil
    · exact h.disjoint j l t u hj hl id htid huid
  noNull := ht.served.noNull
  sealed k id hk := by
    rcases ht.served.cached k id hk with hold | ⟨heq, hfree, -, -⟩
    · exact (ht.keeps (h.sealed k id hold)).1
    · -- what is put into the cache was owned by `i` alone, which gives it up
      have howns := ht.owns id heq
      refine ⟨Nat.lt_of_lt_of_le (h.owned s (List.mem_of_getElem? ht.conn) id howns)
        ht.served.nextStream, fun t hin htid => ?_⟩
      obtain ⟨j, hj⟩ := List.mem_iff_getElem?.1 hin
      have hi : i < P.conns.length := (List.getElem?_eq_some_iff.1 ht.conn).1
      simp only [put, List.getElem?_set, hi, if_true] at hj
      split at hj
      · cases hj
        exact hfree htid
      · next hij => exact hij (h.disjoint i j s t ht.conn hj id howns htid)
  loaded k id hk := by
    rcases ht.served.cached k id hk with hold | ⟨-, -, hpath, hcontent⟩
    · have hloaded := ht.loaded (h.loaded k id hold)
      rwa [← (ht.keeps (h.sealed k id hold)).2] at hloaded
    · have hi : i < P.conns.length := (List.getElem?_eq_some_iff.1 ht.conn).1
      exact ⟨s', List.mem_set hi s', hpath, hcontent⟩

/-! ## Runs -/

section

variable {host port : Bytes} {pixfmts : List ℕ} {itemsCap : ℕ}

theorem inv_init : Inv (init host port pixfmts itemsCap) where
  conn := by simp [init]
  local' := by simp [init]
  owned := by simp [init]
  disjoint := by simp [init]
  noNull k := by simp [init, ImageCache.new]
  sealed k id hk := by simp [init, ImageCache.new, ImageCache.Holds] at hk
  loaded k id hk := by simp [init, ImageCache.new, ImageCache.Holds] at hk

end

/-- A new connection owns the stream that its constructor has allocated for the body of the
request. -/
theorem owns_accepted {buffer : Buffer} {id : StreamId}
    (h : (Sys.init P.host P.port buffer P.streams P.nextStream P.cache P.pixfmts).Owns id) :
    id = P.nextStream := by
  obtain ⟨op, hmem, htarget⟩ := h
  obtain rfl : op = .readRequest := by simpa [Sys.init] using hmem
  exact (Option.some.inj htarget).symm

/-- Stopping the task pool changes nothing that is owned or has been loaded. -/
theorem mem_stopped {t : Sys} (ht : t ∈ P.conns.map fun s => { s with stopped := true }) :
    ∃ s ∈ P.conns, t = { s with stopped := true } := by
  obtain ⟨s, hs, rfl⟩ := List.mem_map.1 ht
  exact ⟨s, hs, rfl⟩

/-- **A sealed stream is never written to again.** -/
theorem step_keeps (h : Inv P) (hstep : P.step e = some P') {id : StreamId} (hid : P.Sealed id) :
    P'.Sealed id ∧ (P'.streams id).content = (P.streams id).content := by
  cases e with
  | accept buffer =>
      cases hstep
      refine ⟨⟨Nat.lt_succ_of_lt hid.1, fun t hin howns => ?_⟩, ?_⟩
      · rcases List.mem_append.1 hin with hin | hin
        · exact hid.2 t hin howns
        · rw [List.mem_singleton.1 hin] at howns
          exact absurd (owns_accepted howns) (Nat.ne_of_lt hid.1)
      · simp [Sys.init, Nat.ne_of_lt hid.1]
  | turn i e =>
      obtain ⟨s, s', own, ht, rfl⟩ := h.turned hstep
      exact ht.keeps hid
  | stop =>
      cases hstep
      refine ⟨⟨hid.1, fun t hin howns => ?_⟩, rfl⟩
      obtain ⟨s, hs, rfl⟩ := mem_stopped hin
      exact hid.2 s hs howns

theorem step_loaded (h : Inv P) (hstep : P.step e = some P') {k d : Bytes} (hd : P.Loaded k d) :
    P'.Loaded k d := by
  cases e with
  | accept buffer =>
      cases hstep
      obtain ⟨s, hs, hk, hdoc⟩ := hd
      exact ⟨s, List.mem_append_left _ hs, hk, hdoc⟩
  | turn i e =>
      obtain ⟨s, s', own, ht, rfl⟩ := h.turned hstep
      exact ht.loaded hd
  | stop =>
      cases hstep
      obtain ⟨s, hs, hk, hdoc⟩ := hd
      exact ⟨{ s with stopped := true }, List.mem_map_of_mem (f := _) hs, hk, hdoc⟩

theorem accept_inv (h : Inv P) (buffer : Buffer) (hstep : P.step (.accept buffer) = some P') :
    Inv P' := by
  have hkeeps : ∀ {id}, P.Sealed id →
      P'.Sealed id ∧ (P'.streams id).content = (P.streams id).content := fun h' => step_keeps h hstep h'
  have hloaded : ∀ {k d}, P.Loaded k d → P'.Loaded k d := fun h' => step_loaded h hstep h'
  have hmem : ∀ t ∈ P'.conns, t ∈ P.conns ∨
      t = Sys.init P.host P.port buffer P.streams P.nextStream P.cache P.pixfmts := by
    cases hstep
    simp
  have hcache : P'.cache = P.cache := by
    cases hstep
    rfl
  have hnext : P'.nextStream = P.nextStream + 1 := by
    cases hstep
    rfl
  -- the new connection is the last one
  have hget : ∀ {j t}, P'.conns[j]? = some t → P.conns[j]? = some t ∨ (j = P.conns.length ∧
      t = Sys.init P.host P.port buffer P.streams P.nextStream P.cache P.pixfmts) := by
    cases hstep
    intro j t hj
    rw [List.getElem?_append] at hj
    split at hj
    · exact Or.inl hj
    · next hle =>
        obtain ⟨hlt, heq⟩ := List.getElem?_eq_some_iff.1 hj
        simp only [List.length_singleton] at hlt
        refine Or.inr ⟨by omega, ?_⟩
        rw [← heq, List.getElem_singleton]
  exact {
    conn := fun t hin => by
      rcases hmem t hin with hin | rfl
      · exact h.conn t hin
      · exact Sys.inv_init
    local' := fun t hin => by
      rcases hmem t hin with hin | rfl
      · exact h.local' t hin
      · exact ⟨by simp [Sys.init, Op.isUpstream], fun _ => ⟨rfl, rfl, rfl⟩⟩
    owned := fun t hin id hid => by
      rw [hnext]
      rcases hmem t hin with hin | rfl
      · exact Nat.lt_succ_of_lt (h.owned t hin id hid)
      · rw [owns_accepted hid]
        exact Nat.lt_succ_self _
    disjoint := fun j l t u hj hl id htid huid => by
      rcases hget hj with hj | ⟨hlast, rfl⟩ <;> rcases hget hl with hl | ⟨hlast', rfl⟩
      · exact h.disjoint j l t u hj hl id htid huid
      · have hlt := h.owned t (List.mem_of_getElem? hj) id htid
        exact absurd (owns_accepted huid) (Nat.ne_of_lt hlt)
      · have hlt := h.owned u (List.mem_of_getElem? hl) id huid
        exact absurd (owns_accepted htid) (Nat.ne_of_lt hlt)
      · exact hlast.trans hlast'.symm
    noNull := hcache ▸ h.noNull
    sealed := fun k id hk => (hkeeps (h.sealed k id (hcache ▸ hk))).1
    loaded := fun k id hk => by
      rw [hcache] at hk
      rw [(hkeeps (h.sealed k id hk)).2]
      exact hloaded (h.loaded k id hk) }

theorem stop_inv (h : Inv P) (hstep : P.step .stop = some P') : Inv P' := by
  have hkeeps : ∀ {id}, P.Sealed id → P'.Sealed id := fun h' => (step_keeps h hstep h').1
  have hloaded : ∀ {k d}, P.Loaded k d → P'.Loaded k d := fun h' => step_loaded h hstep h'
  cases hstep
  exact {
    conn := fun t hin => by
      obtain ⟨s, hs, rfl⟩ := mem_stopped hin
      have hinv := h.conn s hs
      exact ⟨hinv.pending, hinv.sent, hinv.unanswered, hinv.answered, hinv.accepted, hinv.image,
        hinv.clientError⟩
    local' := fun t hin => by
      obtain ⟨s, hs, rfl⟩ := mem_stopped hin
      exact ⟨(h.local' s hs).upstream, (h.local' s hs).request⟩
    owned := fun t hin id hid => by
      obtain ⟨s, hs, rfl⟩ := mem_stopped hin
      exact h.owned s hs id hid
    disjoint := fun j l t u hj hl id htid huid => by
      rw [List.getElem?_map, Option.map_eq_some_iff] at hj hl
      obtain ⟨t, hj, rfl⟩ := hj
      obtain ⟨u, hl, rfl⟩ := hl
      exact h.disjoint j l t u hj hl id htid huid
    noNull := h.noNull
    sealed := fun k id hk => hkeeps (h.sealed k id hk)
    loaded := fun k id hk => hloaded (h.loaded k id hk) }

theorem step_inv (P : Proxy) (e : Event) (P' : Proxy) (h : Inv P) (hstep : P.step e = some P') :
    Inv P' := by
  cases e with
  | accept buffer => exact accept_inv h buffer hstep
  | turn i e =>
      obtain ⟨s, s', own, ht, rfl⟩ := h.turned hstep
      exact ht.put_inv h
  | stop => exact stop_inv h hstep

/-! ## What is cached and shown -/

theorem step_loads (h : Inv P) (hstep : P.step e = some P') {k : Bytes} {id : StreamId}
    (hk : P.cache.Holds k id) : P.Loaded k (P'.streams id).content := by
  rw [(step_keeps h hstep (h.sealed k id hk)).2]
  exact h.loaded k id hk

/-- What a step gives a connection to show: it had it before, it has just read the end of it, or the
cache had it. -/
theorem step_shows (h : Inv P) (hstep : P.step e = some P') {t : Sys} (ht : t ∈ P'.conns)
    {d : Bytes} (hd : d ∈ t.documents) :
    (∃ s ∈ P.conns, d ∈ s.documents ∧ s.requested <+: t.requested) ∨
      (∃ i ec data a s, e = .turn i (.readResponse ec data a) ∧ P.view i = some s ∧
        s.Arrives data d ∧ s.requested <+: t.requested) ∨
      ∃ k, t.requested.head? = some k ∧ P.Loaded k d := by
  cases e with
  | accept buffer =>
      cases hstep
      rcases List.mem_append.1 ht with ht | ht
      · exact Or.inl ⟨t, ht, hd, List.prefix_rfl⟩
      · rw [List.mem_singleton.1 ht] at hd
        exact absurd hd (by simp [Sys.init])
  | turn i e =>
      obtain ⟨s, s', own, hturned, hput⟩ := h.turned hstep
      subst hput
      rcases mem_put ht with rfl | ht
      · have hrequested : s.requested <+: t.requested := hturned.served.requested
        rcases hturned.served.shows d hd with hold | hshown | ⟨k, id, hk, hpath, rfl⟩
        · exact Or.inl ⟨s, List.mem_of_getElem? hturned.conn, hold, hrequested⟩
        · -- no other handler hands a document that it has read to `LoadDoc`
          cases e with
          | readResponse ec data a =>
              refine Or.inr (Or.inl ⟨i, ec, data, a, P.join s, rfl, ?_, hshown, hrequested⟩)
              rw [view, hturned.conn]
              rfl
          | _ => exact absurd hshown id
        · exact Or.inr (Or.inr ⟨k, hpath, step_loads h hstep hk⟩)
      · exact Or.inl ⟨t, ht, hd, List.prefix_rfl⟩
  | stop =>
      cases hstep
      obtain ⟨s, hs, rfl⟩ := mem_stopped ht
      exact Or.inl ⟨s, hs, hd, List.prefix_rfl⟩

theorem Fetched.append {P₀ : Proxy} {es more : List Event} {k d : Bytes} (h : Fetched P₀ es k d) :
    Fetched P₀ (es ++ more) k d := by
  obtain ⟨before, after, i, ec, data, a, P, s, rfl, hrun, hview, hk, harrives⟩ := h
  exact ⟨before, after ++ more, i, ec, data, a, P, s, by simp, hrun, hview, hk, harrives⟩

/-- Every document of a run has been fetched in it. -/
theorem run_fetched {P₀ : Proxy} (h₀ : Inv P₀) (hnone : P₀.conns = []) (es : List Event) :
    ∀ P, StepSystem.run step P₀ es = some P → ∀ s ∈ P.conns, ∀ d ∈ s.documents,
      ∃ k, s.requested.head? = some k ∧ Fetched P₀ es k d := by
  induction es using List.reverseRecOn with
  | nil =>
      intro P hrun s hs
      cases hrun
      rw [hnone] at hs
      exact absurd hs (by simp)
  | append_singleton es e ih =>
      intro P' hlast t ht d hd
      obtain ⟨P, hrun, hstep⟩ := StepSystem.run_concat_eq_some.1 hlast
      have hinv := StepSystem.run_invariant step_inv hrun h₀
      rcases step_shows hinv hstep ht hd with ⟨s, hs, hdoc, hprefix⟩ | hread | ⟨k, hk, hloaded⟩
      · obtain ⟨k, hk, hfetched⟩ := ih P hrun s hs d hdoc
        exact ⟨k, Sys.head?_of_prefix hprefix hk, hfetched.append⟩
      · obtain ⟨i, ec, data, a, s, rfl, hview, harrives, hprefix⟩ := hread
        refine ⟨s.conn.imagePath, Sys.head?_of_prefix hprefix harrives.1, ?_⟩
        exact ⟨es, [], i, ec, data, a, P, s, rfl, hrun, hview, harrives.1, harrives⟩
      · obtain ⟨s, hs, hpath, hdoc⟩ := hloaded
        obtain ⟨k', hk', hfetched⟩ := ih P hrun s hs d hdoc
        obtain rfl : k = k' := Option.some.inj (hpath.symm.trans hk')
        exact ⟨k, hk, hfetched.append⟩

/-- The stream is sealed, and has the content it had in `P`. -/
def KeepsStream (P : Proxy) (id : StreamId) (Q : Proxy) : Prop :=
  Q.Inv ∧ Q.Sealed id ∧ (Q.streams id).content = (P.streams id).content

theorem run_sealed {es : List Event} (h : Inv P) (hrun : StepSystem.run step P es = some P')
    {id : StreamId} (hid : P.Sealed id) : (P'.streams id).content = (P.streams id).content := by
  have hstep : ∀ Q e Q', KeepsStream P id Q → Q.step e = some Q' → KeepsStream P id Q' := by
    intro Q e Q' hQ hstep
    obtain ⟨hsealed, hcontent⟩ := step_keeps hQ.1 hstep hQ.2.1
    exact ⟨step_inv Q e Q' hQ.1 hstep, hsealed, hcontent.trans hQ.2.2⟩
  exact (StepSystem.run_invariant hstep hrun ⟨h, hid, rfl⟩).2.2

section

variable {host port : Bytes} {pixfmts : List ℕ} {itemsCap : ℕ}

/-- **Whatever the connections do from then on, and in whatever order, a file that is in the cache is
not written to any more**, not even after it has been pushed out. -/
theorem cached_kept {P P' : Proxy} {es : List Event}
    (h : StepSystem.Reachable step (init host port pixfmts itemsCap) P)
    (hrun : StepSystem.run step P es = some P') {k : Bytes} {id : StreamId}
    (hk : P.cache.Holds k id) : (P'.streams id).content = (P.streams id).content :=
  have hinv := h.invariant step_inv inv_init
  run_sealed hinv hrun (hinv.sealed k id hk)

theorem length_zeros : (List.replicate bufferSize (0 : UInt8)).length = bufferSize :=
  List.length_replicate

/-- A connection fetches a file, and another is accepted that asks for the same path. -/
def fetchOnce : List Event :=
  [.accept ⟨_, length_zeros⟩,
    .turn 0 (.readRequest .success (lit "GET /a HTTP/1.1\x0d\n\x0d\n") Sys.exampleAnswers),
    .turn 0 (.resolved (some 0)), .turn 0 (.connected true), .turn 0 (.wroteRequest true),
    .turn 0 (.readResponse .success
      (lit "HTTP/1.1 200 OK\x0d\nContent-Length: 3\x0d\n\x0d\nabc") Sys.exampleAnswers)]

def hitOnce : List Event :=
  [.accept ⟨_, length_zeros⟩,
    .turn 1 (.readRequest .success (lit "GET /a HTTP/1.1\x0d\n\x0d\n") Sys.exampleAnswers)]

def exampleInit : Proxy := init (lit "localhost") (lit "50070") [0] 0x10

theorem cached_kept_hitOnce : ∃ P P' : Proxy, StepSystem.run step exampleInit fetchOnce = some P ∧
    StepSystem.run step P hitOnce = some P' ∧ P.cache.Holds (lit "/a") 1 ∧
    (P'.streams 1).content = (P.streams 1).content := by
  have hfetch : (StepSystem.run step exampleInit fetchOnce).map
      (fun P => (P.cache.map.lookup (lit "/a"), (StepSystem.run step P hitOnce).isSome))
      = some (some (some 1), true) := by decide +kernel
  obtain ⟨P, hrun, hP⟩ := Option.map_eq_some_iff.1 hfetch
  obtain ⟨P', hrun'⟩ := Option.isSome_iff_exists.1 (Prod.ext_iff.1 hP).2
  have hk : P.cache.Holds (lit "/a") 1 := (Prod.ext_iff.1 hP).1
  exact ⟨P, P', hrun, hrun', hk, cached_kept ⟨fetchOnce, hrun⟩ hrun' hk⟩

/-- **Every document that a connection is shown, and every file that is in the cache under `k`, was in
the image of a connection that read a 200 response to its end, and for whose client `GetQuery` had
computed the same path.** -/
theorem documents_fetched {P : Proxy} {es : List Event}
    (hrun : StepSystem.run step (init host port pixfmts itemsCap) es = some P) :
    (∀ s ∈ P.conns, ∀ d ∈ s.documents, ∃ k, s.requested.head? = some k ∧
      Fetched (init host port pixfmts itemsCap) es k d) ∧
    ∀ k id, P.cache.Holds k id →
      Fetched (init host port pixfmts itemsCap) es k (P.streams id).content := by
  have hfetched := run_fetched inv_init rfl es P hrun
  refine ⟨hfetched, fun k id hk => ?_⟩
  obtain ⟨s, hs, hpath, hdoc⟩ := (StepSystem.run_invariant step_inv hrun inv_init).loaded k id hk
  obtain ⟨k', hk', hd⟩ := hfetched s hs _ hdoc
  obtain rfl : k = k' := Option.some.inj (hpath.symm.trans hk')
  exact hd

theorem documents_fetched_hitOnce : ∃ P : Proxy,
    StepSystem.run step exampleInit (fetchOnce ++ hitOnce) = some P ∧
    P.conns.map Sys.documents = [[lit "abc"], [lit "abc"]] ∧
    ∀ s ∈ P.conns, ∀ d ∈ s.documents, ∃ k, s.requested.head? = some k ∧
      Fetched exampleInit (fetchOnce ++ hitOnce) k d := by
  have hshown : (StepSystem.run step exampleInit (fetchOnce ++ hitOnce)).map
      (fun P => P.conns.map Sys.documents) = some [[lit "abc"], [lit "abc"]] := by decide +kernel
  obtain ⟨P, hrun, hP⟩ := Option.map_eq_some_iff.1 hshown
  exact ⟨P, hrun, hP, (documents_fetched hrun).1⟩

end

end Proxy

end ImageProxy
