import Mathlib.Tactic.SplitIfs
import ImageProxy.Http.Parser

set_option autoImplicit false

/-! # The headers that the parser knows

Of the headers a few tell the parser how the message goes on. It recognises them while it reads them:
the state says which words the letters so far may still become, the index how many there have been.
Here that is compared with the whole words: a name is recognised if it is one of five in some mix of
cases (`NameSoFar.kind_eq`), a value if it is one of three, with nothing but spaces after it
(`ValueSoFar.spells_iff`). -/

namespace ImageProxy.Http

open Ascii

/-! ## The words -/

/-- What a header tells the parser. -/
inductive HeaderKind where
  | connection
  | contentLength
  | transferEncoding
  | upgrade
  | other
deriving DecidableEq, Repr

/-- The names that are matched. -/
def knownNames : List Bytes :=
  [lit "connection", lit "proxy-connection", lit "content-length", lit "transfer-encoding",
    lit "upgrade"]

/-- The kind of a header, by its name in lower case. -/
def HeaderKind.of (name : Bytes) : HeaderKind :=
  if name = lit "connection" ∨ name = lit "proxy-connection" then .connection
  else if name = lit "content-length" then .contentLength
  else if name = lit "transfer-encoding" then .transferEncoding
  else if name = lit "upgrade" then .upgrade
  else .other

/-- The kind that a state stands for at the colon. -/
def HeaderState.kind : HeaderState → HeaderKind
  | .connection => .connection
  | .contentLength => .contentLength
  | .transferEncoding => .transferEncoding
  | .upgrade => .upgrade
  | _ => .other

/-- The values that are matched. -/
def HeaderKind.values : HeaderKind → List Bytes
  | .connection => [lit "keep-alive", lit "close"]
  | .transferEncoding => [lit "chunked"]
  | _ => []

/-- The value is the word, in any case, and spaces after it. -/
def Spells (word value : Bytes) : Prop :=
  (value.take word.length).map lower = word ∧ ∀ c ∈ value.drop word.length, c = asc ' '

instance (word value : Bytes) : Decidable (Spells word value) :=
  inferInstanceAs (Decidable (_ ∧ _))

theorem HeaderKind.of_eq_other {name : Bytes} (h : ∀ known ∈ knownNames, name ≠ known) :
    HeaderKind.of name = .other := by
  simp only [knownNames, List.mem_cons, List.not_mem_nil, or_false, forall_eq_or_imp,
    forall_eq] at h
  obtain ⟨hconnection, hproxy, hlength, hencoding, hupgrade⟩ := h
  simp only [HeaderKind.of, hconnection, hproxy, hlength, hencoding, hupgrade, or_self, if_false]

/-! ## One word -/

/-- The letters so far are the beginning of a word, but not all of it; at least `n` of them, after
which no other word is left. -/
structure Within (word : Bytes) (n : ℕ) (letters : Bytes) (index : ℕ) : Prop where
  isPrefix : letters <+: word
  length : letters.length = index + 1
  least : n ≤ letters.length
  short : letters.length < word.length

theorem concat_isPrefix_iff {letters word : Bytes} (h : letters <+: word)
    (hlt : letters.length < word.length) (c : UInt8) :
    letters ++ [c] <+: word ↔ c = charAt word letters.length := by
  obtain ⟨rest, rfl⟩ := h
  cases rest with
  | nil => simp at hlt
  | cons d rest =>
      rw [List.prefix_append_right_inj]
      simp [charAt]

namespace Within

variable {word letters : Bytes} {n index : ℕ}

/-- Words that part within `n` letters. -/
theorem not_isPrefix (h : Within word n letters index) {other : Bytes}
    (hother : ¬word.take n <+: other) : ¬letters <+: other := by
  intro hletters
  have htake : word.take n <+: letters :=
    List.prefix_of_prefix_length_le (List.take_prefix n word) h.isPrefix
      (Nat.le_trans (List.length_take_le n word) h.least)
  exact hother (List.IsPrefix.trans htake hletters)

/-- One more letter: it ends the word, it is the next one, or it is another. -/
theorem step (h : Within word n letters index) (matching matched : HeaderState) (c : UInt8) :
    (matchLetter word matching matched (index + 1) c = matched ∧ letters ++ [c] = word) ∨
    (matchLetter word matching matched (index + 1) c = matching ∧
      Within word n (letters ++ [c]) (index + 1)) ∨
    (matchLetter word matching matched (index + 1) c = .general ∧ ¬letters ++ [c] <+: word) := by
  have hiff := concat_isPrefix_iff h.isPrefix h.short c
  have hshort := h.short
  have hlength := h.length
  have hleast := h.least
  have hconcat : (letters ++ [c]).length = letters.length + 1 := by simp
  rw [hlength] at hiff
  by_cases hc : c = charAt word (index + 1)
  · have hprefix := hiff.2 hc
    -- the literal is compared from its index 1 on, up to its last letter
    by_cases hlast : index + 1 = word.length - 1
    · left
      refine ⟨?_, List.IsPrefix.eq_of_length hprefix (by omega)⟩
      rw [matchLetter, if_neg (by simp only [hc, ne_eq, not_true_eq_false, or_false]; omega),
        if_pos hlast]
    · right
      left
      refine ⟨?_, hprefix, by omega, by omega, by omega⟩
      rw [matchLetter, if_neg (by simp only [hc, ne_eq, not_true_eq_false, or_false]; omega),
        if_neg hlast]
  · right
    right
    exact ⟨by rw [matchLetter, if_pos (Or.inr hc)], fun hprefix => hc (hiff.1 hprefix)⟩

end Within

/-! ## Names -/

/-- What a state and an index say of the letters of a name, in lower case, that have been read. -/
def NameSoFar (letters : Bytes) (index : ℕ) : HeaderState → Prop
  | .general => ∀ known ∈ knownNames, ¬letters <+: known
  | .c => letters = lit "c" ∧ index = 0
  | .co => letters = lit "co" ∧ index = 1
  | .con => letters = lit "con" ∧ index = 2
  | .matchingConnection => Within (lit "connection") 4 letters index
  | .matchingProxyConnection => Within (lit "proxy-connection") 1 letters index
  | .matchingContentLength => Within (lit "content-length") 4 letters index
  | .matchingTransferEncoding => Within (lit "transfer-encoding") 1 letters index
  | .matchingUpgrade => Within (lit "upgrade") 1 letters index
  | .connection => letters = lit "connection" ∨ letters = lit "proxy-connection"
  | .contentLength => letters = lit "content-length"
  | .transferEncoding => letters = lit "transfer-encoding"
  | .upgrade => letters = lit "upgrade"
  | _ => False

/-- `n` letters tell `word` from the other known names. -/
def Apart (word : Bytes) (n : ℕ) : Prop :=
  ∀ known ∈ knownNames, known = word ∨ ¬word.take n <+: known

instance (word : Bytes) (n : ℕ) : Decidable (Apart word n) :=
  inferInstanceAs (Decidable (∀ known ∈ knownNames, _ ∨ _))

theorem Within.ne_known {word letters : Bytes} {n index : ℕ} (h : Within word n letters index)
    (hapart : Apart word n) : ∀ known ∈ knownNames, letters ≠ known := by
  rintro known hknown rfl
  rcases hapart letters hknown with rfl | hother
  · exact absurd h.short (Nat.lt_irrefl _)
  · exact h.not_isPrefix hother (List.prefix_refl _)

theorem Within.general {word letters : Bytes} {n index : ℕ} (h : Within word n letters index)
    (hapart : Apart word n) {c : UInt8} (hc : ¬letters ++ [c] <+: word) :
    ∀ known ∈ knownNames, ¬letters ++ [c] <+: known := by
  intro known hknown hprefix
  rcases hapart known hknown with rfl | hother
  · exact hc hprefix
  · exact h.not_isPrefix hother (List.IsPrefix.trans (List.prefix_append _ _) hprefix)

namespace NameSoFar

variable {letters : Bytes} {index : ℕ} {state : HeaderState}

theorem initial (c : UInt8) : NameSoFar [c] 0 (headerStateOfInitial c) := by
  rw [headerStateOfInitial]
  split_ifs with hc hp ht hu
  · exact ⟨by rw [hc]; rfl, rfl⟩
  · subst hp
    exact ⟨by decide, rfl, by decide, by decide⟩
  · subst ht
    exact ⟨by decide, rfl, by decide, by decide⟩
  · subst hu
    exact ⟨by decide, rfl, by decide, by decide⟩
  · intro known hknown hprefix
    simp only [knownNames, List.mem_cons, List.not_mem_nil, or_false] at hknown
    have hhead : known.head? = some c := by
      obtain ⟨rest, rfl⟩ := hprefix
      rfl
    rcases hknown with rfl | rfl | rfl | rfl | rfl
    · exact hc (Option.some.inj hhead).symm
    · exact hp (Option.some.inj hhead).symm
    · exact hc (Option.some.inj hhead).symm
    · exact ht (Option.some.inj hhead).symm
    · exact hu (Option.some.inj hhead).symm

/-- **A name is recognised by its letters, whatever their case, and by all of them.** -/
theorem kind_eq (h : NameSoFar letters index state) : state.kind = HeaderKind.of letters := by
  cases state with
  | general =>
      exact (HeaderKind.of_eq_other fun known hknown heq =>
        h known hknown (heq ▸ List.prefix_refl _)).symm
  | c => rw [h.1]; decide
  | co => rw [h.1]; decide
  | con => rw [h.1]; decide
  | matchingConnection => exact (HeaderKind.of_eq_other (h.ne_known (by decide))).symm
  | matchingProxyConnection => exact (HeaderKind.of_eq_other (h.ne_known (by decide))).symm
  | matchingContentLength => exact (HeaderKind.of_eq_other (h.ne_known (by decide))).symm
  | matchingTransferEncoding => exact (HeaderKind.of_eq_other (h.ne_known (by decide))).symm
  | matchingUpgrade => exact (HeaderKind.of_eq_other (h.ne_known (by decide))).symm
  | connection =>
      rcases h with rfl | rfl
      · decide
      · decide
  | contentLength => rw [h]; decide
  | transferEncoding => rw [h]; decide
  | upgrade => rw [h]; decide
  | matchingTransferEncodingChunked => exact h.elim
  | matchingConnectionKeepAlive => exact h.elim
  | matchingConnectionClose => exact h.elim
  | transferEncodingChunked => exact h.elim
  | connectionKeepAlive => exact h.elim
  | connectionClose => exact h.elim

/-- After these letters the known names go on with one of `nexts`, if there are any. -/
def Branches (letters nexts : Bytes) : Prop :=
  ∀ known ∈ knownNames, letters = known ∨ ¬letters <+: known ∨
    (letters.length < known.length ∧ charAt known letters.length ∈ nexts)

instance (letters nexts : Bytes) : Decidable (Branches letters nexts) :=
  inferInstanceAs (Decidable (∀ known ∈ knownNames, _ ∨ _ ∨ _))

/-- A letter with which no known name goes on. -/
theorem general_of_branches (nexts : Bytes) (h : Branches letters nexts) {c : UInt8}
    (hc : c ∉ nexts) : NameSoFar (letters ++ [c]) index .general := by
  intro known hknown hprefix
  rcases h known hknown with rfl | hnot | ⟨hshort, hnext⟩
  · have hle := hprefix.length_le
    rw [List.length_append, List.length_singleton] at hle
    omega
  · exact hnot (List.IsPrefix.trans (List.prefix_append _ _) hprefix)
  · have hletters : letters <+: known := List.IsPrefix.trans (List.prefix_append _ _) hprefix
    rw [← (concat_isPrefix_iff hletters hshort c).1 hprefix] at hnext
    exact hc hnext

theorem of_within (matching matched : HeaderState) {word : Bytes} {n : ℕ}
    (h : Within word n letters index) (hapart : Apart word n)
    (hmatching : ∀ l i, Within word n l i → NameSoFar l i matching)
    (hmatched : ∀ i, NameSoFar word i matched) (c : UInt8) :
    NameSoFar (letters ++ [c]) (index + 1) (matchLetter word matching matched (index + 1) c) := by
  rcases h.step matching matched c with ⟨hstate, hword⟩ | ⟨hstate, hwithin⟩ | ⟨hstate, hnot⟩
  · rw [hstate, hword]
    exact hmatched (index + 1)
  · rw [hstate]
    exact hmatching _ _ hwithin
  · rw [hstate]
    exact h.general hapart hnot

/-- One more letter of a name. -/
theorem step {parser : Parser} (h : NameSoFar letters parser.index parser.headerState) {ch : UInt8}
    (hch : token ch ≠ 0) : ∃ index state, fieldLetter parser ch (token ch)
        = { parser with index := index, headerState := state } ∧
      NameSoFar (letters ++ [token ch]) index state := by
  have hspace : ch ≠ asc ' ' := by
    rintro rfl
    exact hch (by decide)
  obtain ⟨type, flags, st, state, index⟩ := parser
  cases state with
  | general =>
      refine ⟨index, .general, rfl, fun known hknown hprefix => ?_⟩
      exact h known hknown (List.IsPrefix.trans (List.prefix_append _ _) hprefix)
  | c =>
      obtain ⟨rfl, rfl⟩ := h
      refine ⟨1, _, rfl, ?_⟩
      split_ifs with ho
      · exact ⟨by rw [ho]; rfl, rfl⟩
      · exact general_of_branches [asc 'o'] (by decide) (by simpa using ho)
  | co =>
      obtain ⟨rfl, rfl⟩ := h
      refine ⟨2, _, rfl, ?_⟩
      split_ifs with hn
      · exact ⟨by rw [hn]; rfl, rfl⟩
      · exact general_of_branches [asc 'n'] (by decide) (by simpa using hn)
  | con =>
      obtain ⟨rfl, rfl⟩ := h
      refine ⟨3, _, rfl, ?_⟩
      -- here the known names part: `connection` and `content-length`
      split_ifs with hn ht
      · rw [hn]
        exact ⟨by decide, rfl, by decide, by decide⟩
      · rw [ht]
        exact ⟨by decide, rfl, by decide, by decide⟩
      · exact general_of_branches [asc 'n', asc 't'] (by decide) (by simp [hn, ht])
  | matchingConnection =>
      refine ⟨index + 1, _, rfl, ?_⟩
      exact of_within .matchingConnection .connection h (by decide) (fun _ _ hwithin => hwithin)
        (fun _ => Or.inl rfl) (token ch)
  | matchingProxyConnection =>
      refine ⟨index + 1, _, rfl, ?_⟩
      exact of_within .matchingProxyConnection .connection h (by decide) (fun _ _ hwithin => hwithin)
        (fun _ => Or.inr rfl) (token ch)
  | matchingContentLength =>
      refine ⟨index + 1, _, rfl, ?_⟩
      exact of_within .matchingContentLength .contentLength h (by decide) (fun _ _ hwithin => hwithin)
        (fun _ => rfl) (token ch)
  | matchingTransferEncoding =>
      refine ⟨index + 1, _, rfl, ?_⟩
      exact of_within .matchingTransferEncoding .transferEncoding h (by decide) (fun _ _ hwithin => hwithin)
        (fun _ => rfl) (token ch)
  | matchingUpgrade =>
      refine ⟨index + 1, _, rfl, ?_⟩
      exact of_within .matchingUpgrade .upgrade h (by decide) (fun _ _ hwithin => hwithin)
        (fun _ => rfl) (token ch)
  -- no known name goes on behind another one
  | connection =>
      refine ⟨index, .general, by simp only [fieldLetter, if_pos hspace], ?_⟩
      rcases h with rfl | rfl
      · exact general_of_branches [] (by decide) (by simp)
      · exact general_of_branches [] (by decide) (by simp)
  | contentLength =>
      obtain rfl := h
      exact ⟨index, .general, by simp only [fieldLetter, if_pos hspace],
        general_of_branches [] (by decide) (by simp)⟩
  | transferEncoding =>
      obtain rfl := h
      exact ⟨index, .general, by simp only [fieldLetter, if_pos hspace],
        general_of_branches [] (by decide) (by simp)⟩
  | upgrade =>
      obtain rfl := h
      exact ⟨index, .general, by simp only [fieldLetter, if_pos hspace],
        general_of_branches [] (by decide) (by simp)⟩
  -- the states of a value
  | matchingTransferEncodingChunked => exact h.elim
  | matchingConnectionKeepAlive => exact h.elim
  | matchingConnectionClose => exact h.elim
  | transferEncodingChunked => exact h.elim
  | connectionKeepAlive => exact h.elim
  | connectionClose => exact h.elim

end NameSoFar

/-! ## Values -/

/-- The word is what the value spells, or may still become. -/
def MaySpell (word value : Bytes) : Prop := ∃ rest, Spells word (value ++ rest)

/-- What a state and an index say of the part of a value that has been read. -/
def ValueSoFar (kind : HeaderKind) (value : Bytes) (index : ℕ) : HeaderState → Prop
  | .general => ∀ word ∈ kind.values, ¬MaySpell word value
  | .matchingTransferEncodingChunked =>
      kind = .transferEncoding ∧ Within (lit "chunked") 1 (value.map lower) index
  | .matchingConnectionKeepAlive =>
      kind = .connection ∧ Within (lit "keep-alive") 1 (value.map lower) index
  | .matchingConnectionClose =>
      kind = .connection ∧ Within (lit "close") 1 (value.map lower) index
  | .transferEncodingChunked => kind = .transferEncoding ∧ Spells (lit "chunked") value
  | .connectionKeepAlive => kind = .connection ∧ Spells (lit "keep-alive") value
  | .connectionClose => kind = .connection ∧ Spells (lit "close") value
  | _ => False

theorem MaySpell.of_append {word value more : Bytes} (h : MaySpell word (value ++ more)) :
    MaySpell word value := by
  obtain ⟨rest, hrest⟩ := h
  exact ⟨more ++ rest, by rwa [← List.append_assoc]⟩

/-- While a value is shorter than the word it is the beginning of it. -/
theorem MaySpell.isPrefix {word value : Bytes} (h : MaySpell word value)
    (hshort : value.length ≤ word.length) : value.map lower <+: word := by
  obtain ⟨rest, hword, -⟩ := h
  rw [List.take_append, List.take_of_length_le hshort, List.map_append] at hword
  exact ⟨_, hword⟩

/-- Once it is as long it has the word in it, and nothing but spaces after. -/
theorem MaySpell.spells {word value : Bytes} (h : MaySpell word value)
    (hlong : word.length ≤ value.length) : Spells word value := by
  obtain ⟨rest, hword, hspaces⟩ := h
  rw [List.take_append_of_le_length hlong] at hword
  rw [List.drop_append_of_le_length hlong] at hspaces
  exact ⟨hword, fun c hc => hspaces c (by simp [hc])⟩

theorem Spells.length_le {word value : Bytes} (h : Spells word value) :
    word.length ≤ value.length := by
  have hlength := congrArg List.length h.1
  rw [List.length_map, List.length_take] at hlength
  omega

theorem Spells.concat_iff {word value : Bytes} (h : Spells word value) (c : UInt8) :
    Spells word (value ++ [c]) ↔ c = asc ' ' := by
  have hle := h.length_le
  rw [Spells, List.take_append_of_le_length hle, List.drop_append_of_le_length hle]
  constructor
  · rintro ⟨-, hspaces⟩
    exact hspaces c (by simp)
  · rintro rfl
    refine ⟨h.1, fun d hd => ?_⟩
    rcases List.mem_append.1 hd with hd | hd
    · exact h.2 d hd
    · exact List.mem_singleton.1 hd

theorem Spells.maySpell {word value : Bytes} (h : Spells word value) : MaySpell word value :=
  ⟨[], by rwa [List.append_nil]⟩

/-- Either way it begins with the first letter of the word. -/
theorem MaySpell.head?_eq {word value : Bytes} (h : MaySpell word value) (hword : word ≠ [])
    (hvalue : value ≠ []) : word.head? = (value.map lower).head? := by
  obtain ⟨w, word, rfl⟩ := List.exists_cons_of_ne_nil hword
  obtain ⟨c, value, rfl⟩ := List.exists_cons_of_ne_nil hvalue
  obtain ⟨rest, heq, -⟩ := h
  have hhead := congrArg List.head? heq.symm
  simpa using hhead

theorem HeaderKind.values_ne_nil (kind : HeaderKind) : ∀ word ∈ kind.values, word ≠ [] := by
  cases kind <;> decide

/-- The words that are matched for one name have different first letters. -/
theorem MaySpell.unique {kind : HeaderKind} {word other value : Bytes} (hword : word ∈ kind.values)
    (hother : other ∈ kind.values) (h : MaySpell word value) (h' : MaySpell other value)
    (hvalue : value ≠ []) : word = other := by
  have hheads : ∀ kind : HeaderKind, ∀ a ∈ kind.values, ∀ b ∈ kind.values, a.head? = b.head? → a = b
      := by
    intro kind
    cases kind <;> decide
  refine hheads kind word hword other hother ?_
  rw [h.head?_eq (HeaderKind.values_ne_nil kind _ hword) hvalue,
    h'.head?_eq (HeaderKind.values_ne_nil kind _ hother) hvalue]

namespace ValueSoFar

variable {kind : HeaderKind} {value word : Bytes} {index : ℕ} {state : HeaderState}

/-- The word that the value has begun cannot go on with this letter. -/
theorem general_of_not (hword : word ∈ kind.values) (h : MaySpell word value) (hvalue : value ≠ [])
    {c : UInt8} (hc : ¬MaySpell word (value ++ [c])) :
    ValueSoFar kind (value ++ [c]) index .general := by
  intro other hother hmay
  obtain rfl := MaySpell.unique hword hother h hmay.of_append hvalue
  exact hc hmay

theorem ne_nil_of_within {n : ℕ} (h : Within word n (value.map lower) index) : value ≠ [] := by
  rintro rfl
  exact absurd h.length (by simp)

theorem maySpell_of_within {n : ℕ} (h : Within word n (value.map lower) index)
    (hlower : word.map lower = word) : MaySpell word value := by
  obtain ⟨rest, hrest⟩ := h.isPrefix
  have hlength : value.length + rest.length = word.length := by
    rw [← hrest, List.length_append, List.length_map]
  have hrestLower : rest.map lower = rest := by
    rw [← hrest, List.map_append] at hlower
    exact (List.append_inj hlower (by simp)).2
  refine ⟨rest, ?_, ?_⟩
  · rw [List.take_of_length_le (by rw [List.length_append]; omega), List.map_append, hrestLower, hrest]
  · rw [List.drop_eq_nil_of_le (by rw [List.length_append]; omega)]
    simp

theorem of_within (matching matched : HeaderState) {n : ℕ} (hword : word ∈ kind.values)
    (hlower : word.map lower = word) (h : Within word n (value.map lower) index)
    (hmatching : ∀ v i, Within word n (v.map lower) i → ValueSoFar kind v i matching)
    (hmatched : ∀ v i, Spells word v → ValueSoFar kind v i matched) (ch : UInt8) :
    ValueSoFar kind (value ++ [ch]) (index + 1)
      (matchLetter word matching matched (index + 1) (lower ch)) := by
  have hmap : (value ++ [ch]).map lower = value.map lower ++ [lower ch] := by simp
  have hshort := h.short
  rw [List.length_map] at hshort
  rcases h.step matching matched (lower ch) with ⟨hstate, hwhole⟩ | ⟨hstate, hwithin⟩ | ⟨hstate, hnot⟩
  · rw [hstate]
    rw [← hmap] at hwhole
    refine hmatched _ _ ⟨?_, ?_⟩
    · rw [← hwhole, List.length_map, List.take_length]
    · rw [← hwhole, List.length_map, List.drop_length]
      simp
  · rw [hstate]
    exact hmatching _ _ (by rwa [hmap])
  · rw [hstate]
    refine general_of_not hword (maySpell_of_within h hlower) (ne_nil_of_within h) fun hmay => hnot ?_
    rw [← hmap]
    exact hmay.isPrefix (by rw [List.length_append, List.length_singleton]; omega)

/-- The word is complete: only spaces may follow. -/
theorem of_spells (hword : word ∈ kind.values) (h : Spells word value) {ch : UInt8}
    (hch : ch ≠ asc ' ') : ValueSoFar kind (value ++ [ch]) index .general := by
  have hle := h.length_le
  have hvalue : value ≠ [] := by
    rintro rfl
    exact HeaderKind.values_ne_nil kind _ hword (List.length_eq_zero_iff.1 (Nat.le_zero.1 hle))
  refine general_of_not hword h.maySpell hvalue fun hmay => hch ?_
  exact (h.concat_iff ch).1 (hmay.spells (by rw [List.length_append]; omega))

theorem step_matched {parser : Parser} (hword : word ∈ kind.values)
    (h : Spells word value) {ch : UInt8}
    (hletter : valueLetter parser ch = if ch ≠ asc ' ' then
      .next { parser with headerState := .general } else .next parser)
    (hmatched : ∀ v i, Spells word v → ValueSoFar kind v i parser.headerState) :
    ∃ index state, valueLetter parser ch
        = .next { parser with index := index, headerState := state } ∧
      ValueSoFar kind (value ++ [ch]) index state := by
  by_cases hspace : ch = asc ' '
  · rw [if_neg (Decidable.not_not.2 hspace)] at hletter
    exact ⟨parser.index, parser.headerState, hletter,
      hmatched _ _ ((h.concat_iff ch).2 hspace)⟩
  · rw [if_pos hspace] at hletter
    exact ⟨parser.index, .general, hletter, of_spells hword h hspace⟩

/-- One more letter of a value. -/
theorem step {parser : Parser} (h : ValueSoFar kind value parser.index parser.headerState)
    (ch : UInt8) : ∃ index state, valueLetter parser ch
        = .next { parser with index := index, headerState := state } ∧
      ValueSoFar kind (value ++ [ch]) index state := by
  obtain ⟨type, flags, st, state, index⟩ := parser
  cases state with
  | general =>
      refine ⟨index, .general, rfl, fun word hword hmay => ?_⟩
      exact h word hword hmay.of_append
  | matchingTransferEncodingChunked =>
      obtain ⟨rfl, hwithin⟩ := h
      refine ⟨index + 1, _, rfl, ?_⟩
      exact of_within .matchingTransferEncodingChunked .transferEncodingChunked (by decide)
        (by decide) hwithin (fun _ _ hw => ⟨rfl, hw⟩) (fun _ _ hs => ⟨rfl, hs⟩) ch
  | matchingConnectionKeepAlive =>
      obtain ⟨rfl, hwithin⟩ := h
      refine ⟨index + 1, _, rfl, ?_⟩
      exact of_within .matchingConnectionKeepAlive .connectionKeepAlive (by decide)
        (by decide) hwithin (fun _ _ hw => ⟨rfl, hw⟩) (fun _ _ hs => ⟨rfl, hs⟩) ch
  | matchingConnectionClose =>
      obtain ⟨rfl, hwithin⟩ := h
      refine ⟨index + 1, _, rfl, ?_⟩
      exact of_within .matchingConnectionClose .connectionClose (by decide)
        (by decide) hwithin (fun _ _ hw => ⟨rfl, hw⟩) (fun _ _ hs => ⟨rfl, hs⟩) ch
  | transferEncodingChunked =>
      obtain ⟨rfl, hspells⟩ := h
      exact step_matched (by decide) hspells rfl fun _ _ hs => ⟨rfl, hs⟩
  | connectionKeepAlive =>
      obtain ⟨rfl, hspells⟩ := h
      exact step_matched (by decide) hspells rfl fun _ _ hs => ⟨rfl, hs⟩
  | connectionClose =>
      obtain ⟨rfl, hspells⟩ := h
      exact step_matched (by decide) hspells rfl fun _ _ hs => ⟨rfl, hs⟩
  | _ => exact h.elim

/-- A first letter that no word has. -/
theorem general_of_first {c : UInt8}
    (hc : ∀ word ∈ kind.values, word.head? ≠ some (lower c)) :
    ValueSoFar kind [c] index .general := by
  intro word hword hmay
  exact hc word hword (hmay.head?_eq (HeaderKind.values_ne_nil kind _ hword) (by simp))

/-- What the first letter of a value does to the flags. -/
def firstFlags (kind : HeaderKind) (f : Flags) : Flags :=
  if kind = .upgrade then { f with upgrade := true } else f

/-- The first letter of a value; the length is read apart. -/
theorem initial {parser : Parser} (hkind : parser.headerState.kind ≠ .contentLength)
    (hindex : parser.index = 0) (ch : UInt8) : ∃ state, valueInitial parser ch
        = .next { parser with
            headerState := state, flags := firstFlags parser.headerState.kind parser.flags } ∧
      ValueSoFar parser.headerState.kind [ch] 0 state := by
  obtain ⟨type, flags, st, state, index⟩ := parser
  obtain rfl : index = 0 := hindex
  cases state with
  | contentLength => exact absurd rfl hkind
  | upgrade => exact ⟨.general, rfl, fun word hword => absurd hword List.not_mem_nil⟩
  | transferEncoding =>
      refine ⟨_, rfl, ?_⟩
      split_ifs with hc
      · refine ⟨rfl, ?_⟩
        rw [List.map_singleton, hc]
        exact ⟨by decide, rfl, by decide, by decide⟩
      · refine general_of_first fun word hword hfirst => ?_
        obtain rfl := List.mem_singleton.1 hword
        exact hc (Option.some.inj hfirst).symm
  | connection =>
      refine ⟨_, rfl, ?_⟩
      split_ifs with hk hc
      · refine ⟨rfl, ?_⟩
        rw [List.map_singleton, hk]
        exact ⟨by decide, rfl, by decide, by decide⟩
      · refine ⟨rfl, ?_⟩
        rw [List.map_singleton, hc]
        exact ⟨by decide, rfl, by decide, by decide⟩
      · refine general_of_first fun word hword hfirst => ?_
        rcases List.mem_cons.1 hword with rfl | hword
        · exact hk (Option.some.inj hfirst).symm
        · obtain rfl := List.mem_singleton.1 hword
          exact hc (Option.some.inj hfirst).symm
  | _ => exact ⟨.general, rfl, fun word hword => absurd hword List.not_mem_nil⟩

end ValueSoFar

/-! ## What the line end makes of it -/

/-- The flags that a header with this value sets. -/
def HeaderKind.flags (kind : HeaderKind) (value : Bytes) (f : Flags) : Flags :=
  match kind with
  | .connection =>
      { f with
        connectionKeepAlive := f.connectionKeepAlive || decide (Spells (lit "keep-alive") value)
        connectionClose := f.connectionClose || decide (Spells (lit "close") value) }
  | .transferEncoding =>
      { f with chunked := f.chunked || decide (Spells (lit "chunked") value) }
  | .upgrade => { f with upgrade := f.upgrade || !value.isEmpty }
  | _ => f

/-- What `s_header_almost_done` does to the flags. -/
def HeaderState.lineEnd (state : HeaderState) (f : Flags) : Flags :=
  match state with
  | .connectionKeepAlive => { f with connectionKeepAlive := true }
  | .connectionClose => { f with connectionClose := true }
  | .transferEncodingChunked => { f with chunked := true }
  | _ => f

theorem caseHeaderAlmostDone_lf (parser : Parser) : caseHeaderAlmostDone parser LF
    = .next { parser with
        state := .headerValueLws, flags := parser.headerState.lineEnd parser.flags } := by
  obtain ⟨type, flags, st, state, index⟩ := parser
  cases state <;> rfl

namespace ValueSoFar

variable {kind : HeaderKind} {value : Bytes} {index : ℕ} {state : HeaderState}

theorem flags_of_not (hnot : ∀ word ∈ kind.values, ¬Spells word value) (hvalue : value ≠ [])
    (f : Flags) : kind.flags value f = firstFlags kind f := by
  cases kind with
  | connection =>
      have hkeep := hnot (lit "keep-alive") (by decide)
      have hclose := hnot (lit "close") (by decide)
      simp [HeaderKind.flags, firstFlags, hkeep, hclose]
  | transferEncoding =>
      have hchunked := hnot (lit "chunked") (by decide)
      simp [HeaderKind.flags, firstFlags, hchunked]
  | upgrade => simp [HeaderKind.flags, firstFlags, hvalue]
  | contentLength => rfl
  | other => rfl

/-- A word that is not complete is none. -/
theorem not_spells {word : Bytes} (hword : word ∈ kind.values) (hlower : word.map lower = word)
    (h : Within word 1 (value.map lower) index) : ∀ other ∈ kind.values, ¬Spells other value := by
  intro other hother hspells
  obtain rfl := MaySpell.unique hword hother (maySpell_of_within h hlower) hspells.maySpell
    (ne_nil_of_within h)
  have hle := hspells.length_le
  have hshort := h.short
  rw [List.length_map] at hshort
  omega

/-- **The flags are set exactly if the value is one of the words.** -/
theorem lineEnd_eq (h : ValueSoFar kind value index state) (hvalue : value ≠ []) (f : Flags) :
    state.lineEnd (firstFlags kind f) = kind.flags value f := by
  cases state with
  | general =>
      have hnot : ∀ word ∈ kind.values, ¬Spells word value :=
        fun word hword hspells => h word hword hspells.maySpell
      rw [flags_of_not hnot hvalue]
      rfl
  | matchingTransferEncodingChunked =>
      obtain ⟨rfl, hwithin⟩ := h
      rw [flags_of_not (not_spells (by decide) (by decide) hwithin) hvalue]
      rfl
  | matchingConnectionKeepAlive =>
      obtain ⟨rfl, hwithin⟩ := h
      rw [flags_of_not (not_spells (by decide) (by decide) hwithin) hvalue]
      rfl
  | matchingConnectionClose =>
      obtain ⟨rfl, hwithin⟩ := h
      rw [flags_of_not (not_spells (by decide) (by decide) hwithin) hvalue]
      rfl
  | transferEncodingChunked =>
      obtain ⟨rfl, hspells⟩ := h
      simp [HeaderState.lineEnd, HeaderKind.flags, firstFlags, hspells]
  | connectionKeepAlive =>
      obtain ⟨rfl, hspells⟩ := h
      -- a value does not spell both words
      have hclose : ¬Spells (lit "close") value := fun hclose => absurd
        (@MaySpell.unique .connection _ _ _ (by decide) (by decide) hspells.maySpell
          hclose.maySpell hvalue) (by decide)
      simp [HeaderState.lineEnd, HeaderKind.flags, firstFlags, hspells, hclose]
  | connectionClose =>
      obtain ⟨rfl, hspells⟩ := h
      have hkeep : ¬Spells (lit "keep-alive") value := fun hkeep => absurd
        (@MaySpell.unique .connection _ _ _ (by decide) (by decide) hspells.maySpell
          hkeep.maySpell hvalue) (by decide)
      simp [HeaderState.lineEnd, HeaderKind.flags, firstFlags, hspells, hkeep]
  | _ => exact h.elim

end ValueSoFar

end ImageProxy.Http
