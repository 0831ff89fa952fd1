import ImageProxy.Connection.Continuations
import ImageProxy.Connection.Fetch

set_option autoImplicit false

/-! # What a handler writes

A connection writes to two streams in its life: the one that its parser puts bodies into, and the one
that its page is rendered to. Which of the two it is can be told from the operation outstanding
(`Op.target`). Here the handlers are gone through once more, for what they do to streams they do not
own and to the cache (`Served`): they move cursors, put what they owned into the cache, and own from
then on what they have allocated. -/

namespace ImageProxy

open Ascii Cpcl Http

namespace ImageCache

/-- The cache has the stream under the path. -/
def Holds (c : ImageCache Bytes StreamId) (k : Bytes) (id : StreamId) : Prop :=
  c.map.lookup k = some (some id)

/-- No path is kept with a null pointer. -/
def NoNull (c : ImageCache Bytes StreamId) : Prop := ∀ k, c.map.lookup k ≠ some none

theorem lookup_put (c : ImageCache Bytes StreamId) (locked : Bool) (k k' : Bytes)
    (v : Option StreamId) : (c.put locked k v).map.lookup k'
      = if locked = true ∧ k' = k then some v else c.map.lookup k' := by
  cases locked with
  | false => simp [put]
  | true =>
      simp only [map_put, true_and]
      split
      · next heq => rw [heq, AList.lookup_insert]
      · next hne => rw [AList.lookup_insert_ne hne]

theorem holds_put {c : ImageCache Bytes StreamId} {locked : Bool} {k k' : Bytes} {v id : StreamId}
    (h : (c.put locked k (some v)).Holds k' id) : c.Holds k' id ∨ (k' = k ∧ v = id) := by
  rw [Holds, lookup_put] at h
  split at h
  · next hput => exact Or.inr ⟨hput.2, by simpa using h⟩
  · exact Or.inl h

theorem NoNull.put {c : ImageCache Bytes StreamId} (h : c.NoNull) (locked : Bool) (k : Bytes)
    (v : StreamId) : (c.put locked k (some v)).NoNull := by
  intro k'
  rw [lookup_put]
  split
  · simp
  · exact h k'

/-- A hit gives what the cache has. -/
theorem NoNull.get {c : ImageCache Bytes StreamId} (h : c.NoNull) {locked : Bool} {fresh : StreamId}
    {k : Bytes} (hhit : (c.get locked fresh k).2 = true) :
    c.Holds k (c.get locked fresh k).1 := by
  cases locked with
  | false => simp [ImageCache.get] at hhit
  | true =>
      cases hlookup : c.map.lookup k with
      | none => simp [ImageCache.get, hlookup] at hhit
      | some v =>
          cases v with
          | none => exact absurd hlookup (h k)
          | some id => simp [ImageCache.get, Holds, hlookup]

end ImageCache

/-- The stream that the operation, once complete, is going to write to. -/
def Op.target (c : Connection) : Op → Option StreamId
  | .readRequest | .resolve _ _ | .connect _ | .writeRequest _ | .readResponse => c.parser.content
  | .render _ out => some out
  | .writeResponse _ => none

theorem Op.of_isResponse {op : Op} (h : op.isResponse = true) : ∃ data, op = .writeResponse data := by
  cases op with
  | writeResponse data => exact ⟨data, rfl⟩
  | _ => exact absurd h (by simp [isResponse])

namespace Sys

/-- The connection is going to write to the stream. -/
def Owns (s : Sys) (id : StreamId) : Prop := ∃ op ∈ s.pending, op.target s.conn = some id

/-- What goes with the operation outstanding: the image is the stream that bodies go to, and the
first path asked for is the one it is cached under. -/
structure Local (s : Sys) : Prop where
  upstream : ∀ op ∈ s.pending, op.isUpstream = true →
    s.conn.parser.content = s.conn.image ∧ s.requested.head? = some s.conn.imagePath
  request : .readRequest ∈ s.pending →
    s.conn.image = none ∧ s.requested = [] ∧ s.documents = []

/-! ## Footprints -/

/-- Between `s` and `s'` no stream but `own` has changed its content, and nothing has been put into
the cache or handed to `LoadDoc`. -/
structure Quiet (own : Option StreamId) (s s' : Sys) : Prop where
  nextStream : s.nextStream ≤ s'.nextStream
  content : ∀ id < s.nextStream, own ≠ some id →
    (s'.streams id).content = (s.streams id).content
  cache : s'.cache = s.cache
  requested : s.requested <+: s'.requested
  documents : s'.documents = s.documents

/-- The handler that led from `s` to `s'`, the operation outstanding taken out of `s`, wrote to `own`
only. What it handed to `LoadDoc` is something `shown` or what the cache had for the path that its
client asked for. What it put into the cache is `own`, which it has then given up, under that path,
with the content that it has handed to `LoadDoc`. -/
structure Served (own : Option StreamId) (shown : Bytes → Prop) (s s' : Sys) : Prop where
  nextStream : s.nextStream ≤ s'.nextStream
  content : ∀ id < s.nextStream, own ≠ some id →
    (s'.streams id).content = (s.streams id).content
  requested : s.requested <+: s'.requested
  documents : s.documents <+: s'.documents
  owns : ∀ id, s'.Owns id → own = some id ∨ (s.nextStream ≤ id ∧ id < s'.nextStream)
  noNull : s'.cache.NoNull
  shows : ∀ d ∈ s'.documents, d ∈ s.documents ∨ shown d ∨
    ∃ k id, s.cache.Holds k id ∧ s'.requested.head? = some k ∧ (s'.streams id).content = d
  cached : ∀ k id, s'.cache.Holds k id → s.cache.Holds k id ∨
    (own = some id ∧ ¬s'.Owns id ∧ s'.requested.head? = some k ∧
      (s'.streams id).content ∈ s'.documents)
  local' : Local s'

variable {own : Option StreamId} {shown : Bytes → Prop} {s t s' : Sys}

theorem Quiet.refl (own : Option StreamId) (s : Sys) : Quiet own s s :=
  ⟨Nat.le_refl _, fun _ _ _ => rfl, rfl, List.prefix_rfl, rfl⟩

theorem Quiet.trans (h : Quiet own s t) (h' : Quiet own t s') : Quiet own s s' where
  nextStream := Nat.le_trans h.nextStream h'.nextStream
  content id hid hown :=
    (h'.content id (Nat.lt_of_lt_of_le hid h.nextStream) hown).trans (h.content id hid hown)
  cache := h'.cache.trans h.cache
  requested := h.requested.trans h'.requested
  documents := h'.documents.trans h.documents

/-- What is quiet before a handler's part is part of the handler. -/
theorem Served.of_quiet (h : Served own shown t s') (hst : Quiet own s t) :
    Served own shown s s' where
  nextStream := Nat.le_trans hst.nextStream h.nextStream
  content id hid hown :=
    (h.content id (Nat.lt_of_lt_of_le hid hst.nextStream) hown).trans (hst.content id hid hown)
  requested := hst.requested.trans h.requested
  documents := hst.documents ▸ h.documents
  shows d hd := hst.documents ▸ hst.cache ▸ h.shows d hd
  owns id hid := (h.owns id hid).imp_right fun ⟨hle, hlt⟩ => ⟨Nat.le_trans hst.nextStream hle, hlt⟩
  noNull := h.noNull
  cached k id hk := hst.cache ▸ h.cached k id hk
  local' := h.local'

/-- A handler that is quiet to its end, and leaves no operation but parts of the response. -/
theorem Quiet.served (h : Quiet own s s') (hnull : s.cache.NoNull)
    (hpending : ∀ op ∈ s'.pending, op.isResponse = true) : Served own shown s s' where
  nextStream := h.nextStream
  content := h.content
  requested := h.requested
  documents := h.documents ▸ List.prefix_rfl
  shows d hd := Or.inl (h.documents ▸ hd)
  owns id hid := by
    obtain ⟨op, hmem, htarget⟩ := hid
    obtain ⟨data, rfl⟩ := Op.of_isResponse (hpending op hmem)
    exact absurd htarget (by simp [Op.target])
  noNull := h.cache ▸ hnull
  cached k id hk := Or.inl (h.cache ▸ hk)
  local' := by
    refine ⟨fun op hmem hupstream => ?_, fun hmem => ?_⟩
    · obtain ⟨data, rfl⟩ := Op.of_isResponse (hpending op hmem)
      exact absurd hupstream (by simp [Op.isUpstream])
    · exact absurd (hpending _ hmem) (by decide)

theorem head?_of_prefix {α : Type} {l l' : List α} {x : α} (h : l <+: l') (hx : l.head? = some x) :
    l'.head? = some x := by
  obtain ⟨more, rfl⟩ := h
  rw [List.head?_append, hx]
  rfl

/-! ## The helpers -/

theorem seek_quiet (own : Option StreamId) (s : Sys) (image : StreamId) (position : ℤ) :
    Quiet own s (s.seek image position) where
  nextStream := Nat.le_refl _
  content id _ _ := by
    by_cases hid : id = image
    · subst hid
      simp [seek, putStream]
    · simp [seek, putStream, hid]
  cache := rfl
  requested := List.prefix_rfl
  documents := rfl

theorem modify_quiet (own : Option StreamId) (s : Sys) (f : Connection → Connection) :
    Quiet own s (s.modify f) :=
  ⟨Nat.le_refl _, fun _ _ _ => rfl, rfl, List.prefix_rfl, rfl⟩

theorem newStream_quiet (own : Option StreamId) (s : Sys) : Quiet own s s.newStream.2 where
  nextStream := Nat.le_succ _
  content id hid _ := by simp [newStream, putStream, Nat.ne_of_lt hid]
  cache := rfl
  requested := List.prefix_rfl
  documents := rfl

theorem beginResponse_quiet (own : Option StreamId) (code : ℤ) (n : ℕ) (s : Sys) :
    Quiet own s (s.beginResponse code n) :=
  ⟨Nat.le_refl _, fun _ _ _ => rfl, rfl, List.prefix_rfl, rfl⟩

theorem sendResponse_quiet (own : Option StreamId) (code : ℤ) (s : Sys) :
    Quiet own s (s.sendResponse code) := by
  simp only [sendResponse]
  split_ifs
  · cases s.conn.image with
    | none => exact beginResponse_quiet own 500 0 s
    | some image =>
        simp only
        split_ifs
        · exact (seek_quiet own s image 0).trans (beginResponse_quiet own _ _ _)
        · exact (seek_quiet own s image 0).trans (beginResponse_quiet own _ _ _)
  · exact (modify_quiet own s _).trans (beginResponse_quiet own _ _ _)

theorem sendResponse_served (own : Option StreamId) (code : ℤ) {s : Sys} (hpending : s.pending = [])
    (hnull : s.cache.NoNull) : Served own shown s (s.sendResponse code) := by
  refine (sendResponse_quiet own code s).served hnull fun op hmem => ?_
  obtain ⟨data, hdata⟩ := sendResponse_pending code s
  rw [hdata, hpending, List.mem_singleton] at hmem
  rw [hmem]
  rfl

/-- The page is rendered to a stream of its own. -/
theorem showPage_served (own : Option StreamId) (a : Answers) (page : PageInfo) {s : Sys}
    (hpending : s.pending = []) (hnull : s.cache.NoNull) : Served own shown s (s.showPage a page) := by
  simp only [showPage]
  split_ifs
  · exact (sendResponse_served own 200 (by exact hpending) (by exact hnull)).of_quiet
      (modify_quiet own s _)
  · have hquiet := (newStream_quiet own s).trans
      (modify_quiet own _ fun c => { c with image := some s.newStream.1 })
    refine ⟨hquiet.nextStream, hquiet.content, hquiet.requested, List.prefix_rfl, ?_, hnull,
      fun d hd => Or.inl hd, fun k id hk => Or.inl hk, ?_, ?_⟩
    · rintro id ⟨op, hmem, htarget⟩
      obtain rfl : op = _ := by simpa [start, modify, newStream, putStream, hpending] using hmem
      simp only [Op.target, Option.some.injEq] at htarget
      rw [← htarget]
      exact Or.inr ⟨Nat.le_refl _, Nat.lt_succ_self _⟩
    · intro op hmem hupstream
      obtain rfl : op = _ := by simpa [start, modify, newStream, putStream, hpending] using hmem
      exact absurd hupstream (by simp [Op.isUpstream])
    · intro hmem
      exact absurd hmem (by simp [start, modify, newStream, putStream, hpending])
  · exact (sendResponse_served own 500 (by exact hpending) (by exact hnull)).of_quiet
      ((newStream_quiet own s).trans (modify_quiet own _ _))

/-- Nothing is written to streams there were before. -/
theorem Served.mono (h : Served none shown s s') : Served own shown s s' where
  nextStream := h.nextStream
  content id hid _ := h.content id hid (by simp)
  requested := h.requested
  documents := h.documents
  owns id hid := Or.inr ((h.owns id hid).resolve_left (by simp))
  noNull := h.noNull
  shows := h.shows
  cached k id hk := Or.inl ((h.cached k id hk).resolve_right fun h => absurd h.1 (by simp))
  local' := h.local'

/-- A document is handed to `LoadDoc` before the rest of the handler. -/
theorem Served.of_load {d : Bytes}
    (h : Served own shown { s with documents := s.documents ++ [d] } s')
    (hd : shown d ∨ ∃ k id, s.cache.Holds k id ∧ s'.requested.head? = some k ∧
      (s'.streams id).content = d) : Served own shown s s' where
  nextStream := h.nextStream
  content := h.content
  requested := h.requested
  documents := (List.prefix_append _ _).trans h.documents
  owns := h.owns
  noNull := h.noNull
  shows d' hd' := by
    rcases h.shows d' hd' with hmem | hshown
    · rcases List.mem_append.1 hmem with hold | hnew
      · exact Or.inl hold
      · rw [List.mem_singleton.1 hnew]
        exact Or.inr hd
    · exact Or.inr hshown
  cached := h.cached
  local' := h.local'

theorem loadDoc_quiet (own : Option StreamId) (a : Answers) (image : StreamId) (s : Sys) :
    Quiet own { s with documents := s.documents ++ [(s.streams image).content] }
      ((s.seek image 0).loadDoc a image) := by
  have hcontent : ((s.seek image 0).streams image).content = (s.streams image).content := by
    simp [seek, putStream]
  have hload : (s.seek image 0).loadDoc a image
      = seek image a.cursor (seek image 0
          { s with documents := s.documents ++ [(s.streams image).content] }) := by
    rw [loadDoc, hcontent]
    rfl
  rw [hload]
  exact (seek_quiet own _ image 0).trans (seek_quiet own _ image a.cursor)

/-- The document goes into the cache and its page is shown: after `Put` nothing is written to the image
any more. -/
theorem putPage_served {own : Option StreamId} (a : Answers) (page : PageInfo) {s : Sys}
    {image : StreamId} (hpending : s.pending = []) (hnull : s.cache.NoNull)
    (hown : own = some image ∨ (own = none ∧ s.cache.Holds s.conn.imagePath image))
    (hlt : image < s.nextStream) (hpath : s.requested.head? = some s.conn.imagePath) :
    Served own shown { s with documents := s.documents ++ [(s.streams image).content] }
      ((((s.seek image 0).loadDoc a image).putImage a image).showPage a page) := by
  have hquiet := loadDoc_quiet own a image s
  have hput : (s.cache.put a.putLocked s.conn.imagePath (some image)).NoNull := hnull.put _ _ _
  have hshow : Served none shown (((s.seek image 0).loadDoc a image).putImage a image)
      ((((s.seek image 0).loadDoc a image).putImage a image).showPage a page) :=
    showPage_served none a page (by exact hpending) (by exact hput)
  have hcontent : ((((s.seek image 0).loadDoc a image).putImage a image).streams image).content
      = (s.streams image).content := by
    simp [putImage, loadDoc, seek, putStream]
  have hdocuments : (((s.seek image 0).loadDoc a image).putImage a image).documents
      = s.documents ++ [(s.streams image).content] := hquiet.documents
  refine ⟨hshow.nextStream, fun id hid hne => ?_, hshow.requested, ?_, fun id hid => ?_,
    hshow.noNull, fun d hd => ?_, fun k id hk => ?_, hshow.local'⟩
  · exact (hshow.content id hid (by simp)).trans (hquiet.content id hid hne)
  · rw [← hdocuments]
    exact hshow.documents
  · exact (hshow.owns id hid).imp_left fun h => absurd h (by simp)
  · rcases hshow.shows d hd with hmem | hshown | ⟨k, id, hk, hrequested, hd⟩
    · exact Or.inl (hdocuments ▸ hmem)
    · exact Or.inr (Or.inl hshown)
    · rcases ImageCache.holds_put hk with hold | ⟨-, rfl⟩
      · exact Or.inr (Or.inr ⟨k, id, hold, hrequested, hd⟩)
      · rw [← hd, hshow.content image hlt (by simp), hcontent]
        exact Or.inl (by simp)
  · have hold := (hshow.cached k id hk).resolve_right fun h => absurd h.1 (by simp)
    rcases ImageCache.holds_put hold with hold | ⟨rfl, rfl⟩
    · exact Or.inl hold
    · rcases hown with hown | ⟨-, hheld⟩
      · -- the stream was read to, and nobody holds it now
        refine Or.inr ⟨hown, fun howns => ?_, ?_, ?_⟩
        · rcases hshow.owns image howns with h | ⟨hle, -⟩
          · exact absurd h (by simp)
          · exact absurd hlt (Nat.not_lt.2 hle)
        · exact head?_of_prefix hshow.requested hpath
        · refine hshow.documents.subset ?_
          rw [hshow.content image hlt (by simp), hcontent, hdocuments]
          simp
      · exact Or.inl hheld

/-- `SendPage` puts into the cache what it has handed to `LoadDoc`: a stream of its own, or one that
the cache had. -/
theorem sendPage_served {own : Option StreamId} (a : Answers) {s : Sys} {image : StreamId}
    (hpending : s.pending = []) (hnull : s.cache.NoNull) (himage : s.conn.image = some image)
    (hown : (own = some image ∧ shown (s.streams image).content) ∨
      (own = none ∧ s.cache.Holds s.conn.imagePath image))
    (hlt : image < s.nextStream) (hpath : s.requested.head? = some s.conn.imagePath) :
    Served own shown s (s.sendPage a) := by
  have hquiet := loadDoc_quiet own a image s
  suffices hserved : Served own shown
      { s with documents := s.documents ++ [(s.streams image).content] } (s.sendPage a) by
    refine hserved.of_load ?_
    rcases hown with ⟨-, hshown⟩ | ⟨rfl, hheld⟩
    · exact Or.inl hshown
    · exact Or.inr ⟨_, image, hheld, head?_of_prefix hserved.requested hpath,
        hserved.content image hlt (by simp)⟩
  simp only [sendPage, himage]
  rcases a.document with _ | _ | page
  · exact (sendResponse_served own 500 (by exact hpending) (by exact hnull)).of_quiet hquiet
  · refine hquiet.served hnull fun op hmem => ?_
    rw [show ((s.seek image 0).loadDoc a image).pending = [] from hpending] at hmem
    exact absurd hmem (by simp)
  · exact putPage_served a page hpending hnull (hown.imp_left And.left) hlt hpath

/-- An operation of the exchange with the server is started: the parser's stream is the image. -/
theorem start_served {own : Option StreamId} (op : Op) (hop : op.isUpstream = true) {s t : Sys}
    (hquiet : Quiet own s t) (hpending : t.pending = []) (hnull : s.cache.NoNull)
    (hown : ∀ id, t.conn.parser.content = some id →
      own = some id ∨ (s.nextStream ≤ id ∧ id < t.nextStream))
    (himage : t.conn.parser.content = t.conn.image)
    (hpath : t.requested.head? = some t.conn.imagePath) : Served own shown s (t.start op) where
  nextStream := hquiet.nextStream
  content := hquiet.content
  requested := hquiet.requested
  documents := hquiet.documents ▸ List.prefix_rfl
  shows d hd := Or.inl (hquiet.documents ▸ hd)
  owns id hid := by
    obtain ⟨op', hmem, htarget⟩ := hid
    obtain rfl : op' = op := by simpa [start, hpending] using hmem
    refine hown id ?_
    cases op' <;> first | exact htarget | exact absurd hop (by simp [Op.isUpstream])
  noNull := hquiet.cache ▸ hnull
  cached k id hk := Or.inl (hquiet.cache ▸ hk)
  local' := by
    refine ⟨fun op' _ _ => ⟨himage, hpath⟩, fun hmem => ?_⟩
    obtain rfl : Op.readRequest = op := by simpa [start, hpending] using hmem
    exact absurd hop (by simp [Op.isUpstream])

theorem getImage_quiet (own : Option StreamId) (a : Answers) (s : Sys) :
    Quiet own s (s.getImage a).2 where
  nextStream := Nat.le_succ _
  content := (newStream_quiet own s).content
  cache := rfl
  requested := List.prefix_rfl
  documents := rfl

/-- The image: a hit is shown, a miss asks for a new stream, a redirect for the one there is. -/
theorem fetchImage_served {own : Option StreamId} (a : Answers) {s : Sys}
    (hpending : s.pending = []) (hnull : s.cache.NoNull)
    (hheld : ∀ k id, s.cache.Holds k id → id < s.nextStream)
    (hfirst : s.conn.image = none → s.requested.head? = some s.conn.webhdfsPath)
    (hagain : ∀ image, s.conn.image = some image →
      own = some image ∧ s.requested.head? = some s.conn.imagePath) :
    Served own shown s (s.fetchImage a) := by
  simp only [fetchImage]
  cases himage : s.conn.image with
  | none =>
      have hpath := hfirst himage
      simp only
      split_ifs with hhit
      · have hholds : s.cache.Holds s.conn.webhdfsPath
            (s.cache.get a.getLocked s.nextStream s.conn.webhdfsPath).1 := hnull.get hhit
        refine (Served.mono (sendPage_served a (by exact hpending) (by exact hnull) rfl
          (Or.inr ⟨rfl, hholds⟩) ?_ (by exact hpath))).of_quiet (getImage_quiet own a s)
        exact Nat.lt_succ_of_lt (hheld _ _ hholds)
      · -- a miss gives the stream that it allocates
        have hmiss : (s.cache.get a.getLocked s.nextStream s.conn.webhdfsPath).1 = s.nextStream :=
          congrArg Prod.fst (get_miss (Bool.not_eq_true _ ▸ hhit))
        refine start_served _ rfl ((getImage_quiet own a s).trans (modify_quiet own _ _))
          (by exact hpending) hnull (fun id hid => Or.inr ?_) rfl (by exact hpath)
        have hid' : some (s.cache.get a.getLocked s.nextStream s.conn.webhdfsPath).1 = some id := hid
        rw [hmiss, Option.some.injEq] at hid'
        rw [← hid']
        exact ⟨Nat.le_refl _, Nat.lt_succ_self _⟩
  | some image =>
      obtain ⟨hown, hpath⟩ := hagain image himage
      refine start_served _ rfl ((seek_quiet own s image 0).trans (modify_quiet own _ _))
        (by exact hpending) hnull (fun id hid => Or.inl ?_) rfl hpath
      exact hown.trans (himage.symm.trans hid)

theorem sendRequest_served {own : Option StreamId} (a : Answers) (requestPath : Bytes) {s : Sys}
    (hpending : s.pending = []) (hnull : s.cache.NoNull)
    (hheld : ∀ k id, s.cache.Holds k id → id < s.nextStream)
    (hfirst : s.conn.image = none → s.requested = [])
    (hagain : ∀ image, s.conn.image = some image →
      own = some image ∧ s.requested.head? = some s.conn.imagePath) :
    Served own shown s (s.sendRequest a requestPath) := by
  have hnote : Quiet own s { s with requested := s.requested ++ [requestPath] } :=
    ⟨Nat.le_refl _, fun _ _ _ => rfl, rfl, List.prefix_append _ _, rfl⟩
  simp only [sendRequest]
  split_ifs
  · exact (sendResponse_served own 404 (by exact hpending) (by exact hnull)).of_quiet hnote
  · refine (fetchImage_served a (by exact hpending) (by exact hnull) (by exact hheld)
      (fun himage => ?_) (fun image himage => ?_)).of_quiet (hnote.trans (modify_quiet own _ _))
    · simp [modify, hfirst himage]
    · obtain ⟨hown, hpath⟩ := hagain image himage
      exact ⟨hown, head?_of_prefix (List.prefix_append _ _) hpath⟩

/-! ## The handlers -/

/-- The parser writes to the stream it has been given, and keeps it. -/
theorem parse_streams (p : HttpParser) (streams : Streams) (data : Bytes) :
    (p.parse streams data).2.1.content = p.content ∧
      ∀ id, p.content ≠ some id → (p.parse streams data).2.2 id = streams id := by
  have hsim : Simulates settings settings data.length fun u v => u = v ∧
      u.1.content = p.content ∧ ∀ id, p.content ≠ some id → u.2 id = streams id := by
    refine ⟨?_, ?_, ?_⟩
    · rintro n u _ ⟨rfl, hcontent, hother⟩
      refine ⟨rfl, rfl, ?_, ?_⟩ <;> cases n <;> first | exact hcontent | exact hother
    · rintro parser u _ ⟨rfl, hcontent, hother⟩
      exact ⟨rfl, rfl, hcontent, hother⟩
    · rintro m x u _ - ⟨rfl, hcontent, hother⟩
      refine ⟨rfl, rfl, ?_⟩
      cases m with
      | headerField =>
          simp only [Settings.data, settings, Fields.onHeaderField]
          split_ifs <;> exact ⟨hcontent, hother⟩
      | headerValue =>
          simp only [Settings.data, settings, Fields.onHeaderValue]
          split_ifs <;> exact ⟨hcontent, hother⟩
      | url => exact ⟨hcontent, hother⟩
      | body =>
          simp only [Settings.data, settings, Fields.onBody]
          cases hu : u.1.content with
          | none => exact ⟨hcontent, hother⟩
          | some content =>
              refine ⟨hcontent, fun id hid => ?_⟩
              have hne : id ≠ content := by
                rintro rfl
                exact hid (hcontent.symm.trans hu)
              show Function.update u.2 content _ id = streams id
              rw [Function.update_of_ne hne]
              exact hother id hid
  have h := (execute_related hsim p.parser (u := (p.toFields, streams)) data (Nat.le_refl _)
    ⟨rfl, rfl, fun _ _ => rfl⟩).user
  exact ⟨h.2.1, h.2.2⟩

theorem parse_content (data : Bytes) (s : Sys) :
    (s.parse data).2.conn.parser.content = s.conn.parser.content := by
  simp only [parse, modify]
  split
  · exact (parse_streams s.conn.parser s.streams data).1
  · rfl

theorem parse_quiet (data : Bytes) (s : Sys) :
    Quiet s.conn.parser.content s (s.parse data).2 where
  nextStream := Nat.le_refl _
  content id _ hid := by
    refine congrArg DynamicMemoryStream.content ?_
    simp only [parse, modify]
    split
    · exact (parse_streams s.conn.parser s.streams data).2 id hid
    · rfl
  cache := rfl
  requested := List.prefix_rfl
  documents := rfl

/-- A handler that starts nothing. -/
theorem nothing_served {own : Option StreamId} {s s' : Sys} (h : Quiet own s s')
    (hnull : s.cache.NoNull) (hpending : s'.pending = []) : Served own shown s s' :=
  h.served hnull (by simp [hpending])

theorem acceptRequest_served {own : Option StreamId} (a : Answers) {s : Sys}
    (hpending : s.pending = []) (hnull : s.cache.NoNull)
    (hheld : ∀ k id, s.cache.Holds k id → id < s.nextStream) (himage : s.conn.image = none)
    (hrequested : s.requested = []) : Served own shown s (s.acceptRequest a) := by
  have haccept : Quiet own s { s with accepted := true } :=
    ⟨Nat.le_refl _, fun _ _ _ => rfl, rfl, List.prefix_rfl, rfl⟩
  refine Served.of_quiet ?_ haccept
  simp only [acceptRequest]
  cases Query.get s.conn.parser.url with
  | none => exact nothing_served (Quiet.refl own _) hnull hpending
  | some query =>
      simp only
      split_ifs
      · exact (sendResponse_served own 400 (by exact hpending) (by exact hnull)).of_quiet
          (modify_quiet own _ _)
      · have hset : Quiet own ({ s with accepted := true } : Sys)
            (({ s with accepted := true } : Sys).modify fun c =>
              { c with query := query, webhdfsPath := query.requestPath }) := modify_quiet own _ _
        refine Served.of_quiet ?_ hset
        refine sendRequest_served a query.requestPath (by exact hpending) (by exact hnull)
          (by exact hheld) (fun _ => hrequested) fun image h => ?_
        exact absurd (himage.symm.trans h) (by simp)

theorem handleReadRequest_served (ec : Outcome) (data : Bytes) (a : Answers) {s : Sys}
    (hpending : s.pending = []) (hnull : s.cache.NoNull)
    (hheld : ∀ k id, s.cache.Holds k id → id < s.nextStream) (himage : s.conn.image = none)
    (hrequested : s.requested = []) (hdocuments : s.documents = []) :
    Served s.conn.parser.content shown s (s.handleReadRequest ec data a) := by
  have hparse := parse_quiet data s
  by_cases hec : ec = .error
  · subst hec
    exact nothing_served
      ⟨Nat.le_refl _, fun _ _ _ => rfl, rfl, List.prefix_rfl, rfl⟩ hnull hpending
  rw [handleReadRequest_eq hec]
  split_ifs
  · exact (sendResponse_served _ 400 (by exact hpending) (by exact hnull)).of_quiet hparse
  · exact (acceptRequest_served a (by exact hpending) (by exact hnull) (by exact hheld)
      (by exact himage) (by exact hrequested)).of_quiet hparse
  · exact (sendResponse_served _ 400 (by exact hpending) (by exact hnull)).of_quiet hparse
  · refine ⟨hparse.nextStream, hparse.content, hparse.requested, List.prefix_rfl, ?_, hnull,
      fun d hd => Or.inl hd, fun k id hk => Or.inl hk, fun op hmem hupstream => ?_, fun _ => ?_⟩
    · rintro id ⟨op, hmem, htarget⟩
      obtain rfl : op = .readRequest := by simpa [start, parse, modify, hpending] using hmem
      exact Or.inl ((parse_content data s).symm.trans htarget)
    · obtain rfl : op = .readRequest := by simpa [start, parse, modify, hpending] using hmem
      exact absurd hupstream (by simp [Op.isUpstream])
    · exact ⟨himage, hrequested, hdocuments⟩

theorem redirect_served {own : Option StreamId} (a : Answers) {s : Sys} (hpending : s.pending = [])
    (hnull : s.cache.NoNull) (hheld : ∀ k id, s.cache.Holds k id → id < s.nextStream)
    (hsome : s.conn.image.isSome = true) (hown : own = s.conn.image)
    (hpath : s.requested.head? = some s.conn.imagePath) : Served own shown s (s.redirect a) := by
  simp only [redirect]
  cases HttpParser.getHeader s.conn.parser.toFields (lit "Location") with
  | none => exact sendResponse_served own 500 hpending hnull
  | some uri =>
      have hset : Quiet own s { s with conn := (s.conn.setLocation uri).2 } :=
        ⟨Nat.le_refl _, fun _ _ _ => rfl, rfl, List.prefix_rfl, rfl⟩
      have himage : (s.conn.setLocation uri).2.image = s.conn.image := setLocation_image uri s.conn
      have himagePath : (s.conn.setLocation uri).2.imagePath = s.conn.imagePath := by
        simp only [Connection.setLocation]
        split_ifs <;> rfl
      simp only
      split_ifs
      · exact (sendResponse_served own 500 (by exact hpending) (by exact hnull)).of_quiet hset
      · refine (sendRequest_served a _ (by exact hpending) (by exact hnull) (by exact hheld)
          (fun hnone => ?_) (fun image h => ?_)).of_quiet hset
        · have hnone' : s.conn.image = none := himage.symm.trans hnone
          rw [hnone'] at hsome
          exact absurd hsome (by simp)
        · exact ⟨hown.trans (himage.symm.trans h), hpath.trans (congrArg some himagePath.symm)⟩

/-- The read of `data` completes the file that is going to be cached under the path the client asked
for: `d` is in the stream of the image. -/
def Arrives (data : Bytes) (s : Sys) (d : Bytes) : Prop :=
  s.requested.head? = some s.conn.imagePath ∧ Arrived (s.parse data).2 ∧
    ∃ image, s.conn.image = some image ∧ ((s.parse data).2.streams image).content = d

theorem handleReadWebhdfsResponse_served (ec : Outcome) (data : Bytes) (a : Answers) {s : Sys}
    (hpending : s.pending = []) (hnull : s.cache.NoNull)
    (hheld : ∀ k id, s.cache.Holds k id → id < s.nextStream)
    (hsome : s.conn.image.isSome = true) (hlt : ∀ id, s.conn.image = some id → id < s.nextStream)
    (himage : s.conn.parser.content = s.conn.image)
    (hpath : s.requested.head? = some s.conn.imagePath) :
    Served s.conn.parser.content (Arrives data s) s (s.handleReadWebhdfsResponse ec data a) := by
  have hparse := parse_quiet data s
  have hanswer : ∀ code, Served s.conn.parser.content (Arrives data s) s
      ((s.parse data).2.sendResponse code) :=
    fun code => (sendResponse_served _ code (by exact hpending) (by exact hnull)).of_quiet hparse
  have hread : Served s.conn.parser.content (Arrives data s) s
      ((s.parse data).2.start .readResponse) :=
    start_served _ rfl hparse hpending hnull
      (fun id hid => Or.inl ((parse_content data s).symm.trans hid))
      ((parse_content data s).trans himage) hpath
  by_cases hec : ec = .error
  · subst hec
    exact nothing_served (Quiet.refl _ _) hnull hpending
  rw [handleReadWebhdfsResponse_eq hec]
  split_ifs with hinvalid hheaders hredirect hcode hmessage
  · exact hanswer 500
  · exact (redirect_served a (by exact hpending) (by exact hnull) (by exact hheld) (by exact hsome)
      (by exact himage) (by exact hpath)).of_quiet hparse
  · exact hanswer _
  · obtain ⟨image, hsome⟩ := Option.isSome_iff_exists.1 hsome
    refine Served.of_quiet ?_ hparse
    refine sendPage_served a hpending hnull hsome (Or.inl ⟨himage.trans hsome, ?_⟩)
      (hlt image hsome) hpath
    exact ⟨hpath, ⟨hheaders, not_not.1 hcode, hmessage⟩, image, hsome, rfl⟩
  · exact hanswer 500
  · exact hread
  · exact hanswer 500
  · exact hread

theorem handleRendered_served (pieces : List Bytes) (ok : Bool) (out : StreamId) {s : Sys}
    (hpending : s.pending = []) (hnull : s.cache.NoNull) :
    Served (some out) shown s (s.handleRendered pieces ok out) := by
  have hput : ∀ stream, Quiet (some out) s (s.putStream out stream) := fun stream =>
    { nextStream := Nat.le_refl _
      content := fun id _ hid => by
        have hne : id ≠ out := fun h => hid (congrArg some h.symm)
        simp [putStream, hne]
      cache := rfl
      requested := List.prefix_rfl
      documents := rfl }
  exact (sendResponse_served _ _ (by exact hpending) (by exact hnull)).of_quiet (hput _)

theorem handleWriteResponse_served (ok : Bool) {s : Sys} (hpending : s.pending = [])
    (hnull : s.cache.NoNull) : Served none shown s (s.handleWriteResponse ok) := by
  have hnothing : Served none shown s s := nothing_served (Quiet.refl none s) hnull hpending
  cases ok with
  | false =>
      exact nothing_served
        ⟨Nat.le_refl _, fun _ _ _ => rfl, rfl, List.prefix_rfl, rfl⟩ hnull hpending
  | true =>
      simp only [handleWriteResponse, if_true]
      split_ifs
      · cases s.conn.image with
        | none => exact hnothing
        | some image =>
            -- reading the image moves its cursor
            have hread : Quiet none s
                (s.putStream image ((s.streams image).read maxChunkSize).2) := by
              refine ⟨Nat.le_refl _, fun id _ _ => ?_, rfl, List.prefix_rfl, rfl⟩
              by_cases hid : id = image
              · subst hid
                simp [putStream]
              · simp [putStream, hid]
            simp only [writeChunk]
            split
            · refine nothing_served ?_ hnull hpending
              exact ⟨hread.nextStream, hread.content, hread.cache, hread.requested, hread.documents⟩
            · refine Quiet.served ?_ hnull fun op hmem => ?_
              · exact ⟨hread.nextStream, hread.content, hread.cache, hread.requested,
                  hread.documents⟩
              · obtain rfl : op = _ := by simpa [start, modify, putStream, hpending] using hmem
                rfl
      · exact hnothing

/-! ## One step -/

/-- The event is the completion of an operation of the connection. -/
def Event.isCompletion : Event → Bool
  | .stop | .others _ => false
  | _ => true

/-- What an event can have for `LoadDoc` that the cache did not have. -/
def Event.Shows (s : Sys) : Event → Bytes → Prop
  | .readResponse _ data _ => Arrives data s
  | _ => fun _ => False

/-- What a connection finds: the cache has streams that have been allocated, and they are not its
own. -/
structure Sound (s : Sys) : Prop where
  inv : Inv s
  local' : Local s
  noNull : s.cache.NoNull
  held : ∀ k id, s.cache.Holds k id → id < s.nextStream
  owned : ∀ id, s.Owns id → id < s.nextStream

theorem owns_singleton {s : Sys} {op : Op} (hpending : s.pending = [op]) (id : StreamId)
    (hid : op.target s.conn = some id) : s.Owns id := ⟨op, by simp [hpending], hid⟩

/-- With the operation taken out, only the operations differ. -/
theorem Served.of_taken (h : Served own shown { s with pending := [] } s') : Served own shown s s' :=
  h.of_quiet ⟨Nat.le_refl _, fun _ _ _ => rfl, rfl, List.prefix_rfl, rfl⟩

theorem Local.upstream_of {s : Sys} (h : Local s) {op : Op} (hpending : s.pending = [op])
    (hop : op.isUpstream = true) :
    s.conn.parser.content = s.conn.image ∧ s.requested.head? = some s.conn.imagePath :=
  h.upstream op (by simp [hpending]) hop

/-- The step from one operation of the exchange with the server to the next. -/
theorem upstream_served {op op' : Op} (h : Sound s) (hpending : s.pending = [op])
    (hop : op.isUpstream = true) (hop' : op'.isUpstream = true) {c : Connection}
    (hcontent : c.parser.content = s.conn.parser.content) (himage : c.image = s.conn.image)
    (hpath : c.imagePath = s.conn.imagePath) :
    Served s.conn.parser.content shown s (start op' { s with conn := c, pending := [] }) := by
  obtain ⟨hlocal, hrequested⟩ := h.local'.upstream_of hpending hop
  refine start_served op' hop' ⟨Nat.le_refl _, fun _ _ _ => rfl, rfl, List.prefix_rfl, rfl⟩ rfl
    h.noNull (fun id hid => Or.inl (hcontent.symm.trans hid)) ?_ ?_
  · exact hcontent.trans (hlocal.trans himage.symm)
  · exact hrequested.trans (congrArg some hpath.symm)

/-- **A step of a connection writes to the stream of the operation that completed, and to none
else.** -/
theorem step_served {e : Event} (h : Sound s) (hcompletion : e.isCompletion = true)
    (hstep : step s e = some s') :
    ∃ own, (∀ id, own = some id → s.Owns id) ∧ Served own (e.Shows s) s s' := by
  have hidle : ∀ own, Served own (e.Shows s) s { s with pending := [] } := fun own =>
    Served.of_taken (nothing_served (Quiet.refl own _) h.noNull rfl)
  have htarget : ∀ op, s.pending = [op] → op.isUpstream = true →
      ∀ id, s.conn.parser.content = some id → s.Owns id := by
    intro op hpending hop id hid
    refine owns_singleton hpending id ?_
    cases op <;> first | exact hid | exact absurd hop (by simp [Op.isUpstream])
  cases e with
  | readRequest ec data a =>
      simp only [step] at hstep
      split at hstep
      · obtain ⟨op, b, hpending, hop, rfl⟩ := h.inv.complete_event hstep
        split at hop
        · next hread =>
            subst hread
            obtain ⟨himage, hrequested, hdocuments⟩ := h.local'.request (by simp [hpending])
            refine ⟨s.conn.parser.content, owns_singleton hpending, Served.of_taken ?_⟩
            exact handleReadRequest_served ec data a (s := { s with pending := [] }) rfl h.noNull
              h.held himage hrequested hdocuments
        · exact absurd hop (by simp)
      · exact absurd hstep (by simp)
  | resolved endpoints =>
      obtain ⟨op, b, hpending, hop, rfl⟩ := h.inv.complete_event hstep
      cases op <;> simp at hop
      -- without an endpoint nothing is started any more
      cases endpoints with
      | none => exact ⟨none, by simp, hidle none⟩
      | some n =>
          exact ⟨s.conn.parser.content, htarget _ hpending rfl,
            upstream_served h hpending rfl rfl rfl rfl rfl⟩
  | connected ok =>
      obtain ⟨op, b, hpending, hop, rfl⟩ := h.inv.complete_event hstep
      obtain ⟨rfl⟩ : op = .connect b := by cases op <;> simp_all
      refine ⟨s.conn.parser.content, htarget _ hpending rfl, ?_⟩
      cases ok with
      | true =>
          simp only [handleConnect, if_true]
          generalize buildRequest s.conn.host s.conn.webhdfsPath = text
          exact upstream_served h hpending rfl rfl rfl rfl rfl
      | false =>
          cases b with
          | zero => exact hidle _
          | succ n => exact upstream_served h hpending rfl rfl rfl rfl rfl
  | wroteRequest ok =>
      obtain ⟨op, b, hpending, hop, rfl⟩ := h.inv.complete_event hstep
      cases op <;> simp at hop
      refine ⟨s.conn.parser.content, htarget _ hpending rfl, ?_⟩
      cases ok with
      | true => exact upstream_served h hpending rfl rfl rfl rfl rfl
      | false => exact hidle _
  | readResponse ec data a =>
      simp only [step] at hstep
      split at hstep
      · obtain ⟨op, b, hpending, hop, rfl⟩ := h.inv.complete_event hstep
        split at hop
        · next hread =>
            subst hread
            obtain ⟨hlocal, hrequested⟩ := h.local'.upstream_of hpending rfl
            refine ⟨s.conn.parser.content, owns_singleton hpending, Served.of_taken ?_⟩
            refine handleReadWebhdfsResponse_served ec data a (s := { s with pending := [] }) rfl
              h.noNull h.held (h.inv.image .readResponse (by simp [hpending]) rfl) (fun id hid => ?_)
              hlocal hrequested
            exact h.owned id (owns_singleton hpending id (hlocal.trans hid))
        · exact absurd hop (by simp)
      · exact absurd hstep (by simp)
  | rendered pieces ok =>
      obtain ⟨op, out, hpending, hop, rfl⟩ := h.inv.complete_event hstep
      cases op <;> simp at hop
      subst hop
      -- the worker writes to the stream of its task
      refine ⟨some _, owns_singleton hpending, Served.of_taken ?_⟩
      exact handleRendered_served pieces ok _ (s := { s with pending := [] }) rfl h.noNull
  | wroteResponse ok =>
      obtain ⟨op, b, hpending, hop, rfl⟩ := h.inv.complete_event hstep
      cases op <;> simp at hop
      refine ⟨none, by simp, Served.of_taken ?_⟩
      exact handleWriteResponse_served ok (s := { s with pending := [] }) rfl h.noNull
  | abandoned =>
      simp only [step] at hstep
      split at hstep
      · obtain ⟨op, b, hpending, hop, rfl⟩ := h.inv.complete_event hstep
        exact ⟨none, by simp, hidle none⟩
      · exact absurd hstep (by simp)
  | stop => exact absurd hcompletion (by simp [Event.isCompletion])
  | others cache => exact absurd hcompletion (by simp [Event.isCompletion])

end Sys

end ImageProxy
