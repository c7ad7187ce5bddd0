import Mathlib.Data.List.TakeWhile
import Wrkx.Http.Matcher

/-!
# Header values

What the parser finds in the values that it has to know: the length of a body, whether the body
comes in chunks and the options of a connection. Each of them is told by the whole text of the
value.

## Main results

- `length_read` — the digits of a length
- `chunked_recognised` — the encoding that makes chunks, in any case of its letters
- `options_read` — the options of a connection, separated by commas
-/

namespace Wrkx

open Keyword

/-- The encoding is `chunked`, in any case of its letters, and only spaces follow. -/
def isChunked (value : Bytes) : Bool :=
  decide ((value.takeWhile (· ≠ byte ' ')).map lower = chunkedWord) &&
    (value.dropWhile (· ≠ byte ' ')).all (· = byte ' ')

/-- The flag of an option of a connection. -/
def Flags.option (flags : Flags) (option : Bytes) : Flags :=
  if option.map lower = keepAliveWord then { flags with connectionKeepAlive := true }
  else if option.map lower = closeWord then { flags with connectionClose := true }
  else if option.map lower = upgradeWord then { flags with connectionUpgrade := true }
  else flags

/-- An option of a connection. The parser loses the comma after a text that breaks off in the
    middle of an option that it knows. -/
structure IsOption (option : Bytes) : Prop where
  ne_nil : option ≠ []
  text : ∀ ch ∈ option, ch ≠ byte ' ' ∧ ch ≠ byte ','
  first : ∀ ch ∈ option.head?, token (lower ch) ≠ 0
  whole : ∀ word ∈ [keepAliveWord, closeWord, upgradeWord], option.map lower <+: word →
    option.map lower = word

/-- The options after the first one. -/
def moreOptions (options : List Bytes) : Bytes :=
  options.flatMap fun option => byte ',' :: byte ' ' :: option

namespace HttpParser

variable {parser : HttpParser} {word run text w value option : Bytes}
  {state found miss : HeaderStates} {ch : UInt8} {k : ℕ}

/-- The bytes of a value after the first one. -/
def valueBytes (w : Bytes) (parser : HttpParser) : HttpParser :=
  w.foldl (fun parser ch => parser.valueByte ch) parser

theorem valueBytes_cons (ch : UInt8) (w : Bytes) :
    parser.valueBytes (ch :: w) = (parser.valueByte ch).valueBytes w := rfl

theorem valueBytes_append (w w' : Bytes) :
    parser.valueBytes (w ++ w') = (parser.valueBytes w).valueBytes w' := List.foldl_append

theorem valueByte_general (hs : parser.state = .headerValue)
    (h : parser.headerState = .general) : parser.valueByte ch = parser := by
  unfold valueByte
  rw [h]
  dsimp only
  rw [← hs, ← h]

theorem valueBytes_general (hs : parser.state = .headerValue)
    (h : parser.headerState = .general) (w : Bytes) : parser.valueBytes w = parser := by
  induction w with
  | nil => rfl
  | cons ch w ih => rw [valueBytes_cons, valueByte_general hs h, ih]

/-! ## The length -/

/-- The largest length that leaves room for one more digit. -/
theorem valueByte_digit (hstate : parser.headerState = .contentLength)
    (hlength : parser.contentLength = CString.value 10 text) (hdigit : CString.isDigit ch = true)
    (hbound : CString.value 10 text ≤ (ullongMax - 10) / 10) :
    parser.valueByte ch = { parser with contentLength := CString.value 10 (text ++ [ch]) } := by
  have hspace : ch ≠ byte ' ' := by
    rintro rfl
    exact absurd hdigit (by decide)
  unfold valueByte
  rw [hstate]
  dsimp only
  rw [if_neg hspace, if_neg (by simp [hdigit]), if_neg (by omega), hlength, CString.value_concat,
    CString.digitValue, if_pos hdigit]
  rfl

/-- The digits of a length, after some of them. -/
theorem valueBytes_digits (text : Bytes) (hstate : parser.headerState = .contentLength)
    (hlength : parser.contentLength = CString.value 10 text)
    (hdigits : ∀ ch ∈ w, CString.isDigit ch = true)
    (hbound : CString.value 10 (text ++ w) / 10 ≤ (ullongMax - 10) / 10) :
    parser.valueBytes w = { parser with contentLength := CString.value 10 (text ++ w) } := by
  induction w generalizing parser text with
  | nil =>
    rw [List.append_nil, ← hlength]
    rfl
  | cons ch w ih =>
    rw [List.append_cons] at hbound ⊢
    have hfirst : CString.value 10 text ≤ (ullongMax - 10) / 10 := by
      have hle := CString.value_le_append 10 (by decide) (text ++ [ch]) w
      rw [CString.value_concat] at hle
      omega
    rw [valueBytes_cons, valueByte_digit hstate hlength (hdigits ch List.mem_cons_self) hfirst]
    exact ih _ hstate rfl (fun c hc => hdigits c (List.mem_cons_of_mem _ hc)) hbound

/-- The digits of a length. -/
theorem length_read (hstate : parser.headerState = .contentLength)
    (hdigits : ∀ a ∈ ch :: w, CString.isDigit a = true)
    (hbound : CString.value 10 (ch :: w) / 10 ≤ (ullongMax - 10) / 10) :
    (parser.valueStart ch).valueBytes w =
      { parser with
        state := .headerValue, index := 0, contentLength := CString.value 10 (ch :: w) } := by
  have hdigit := hdigits ch List.mem_cons_self
  have hstart : parser.valueStart ch =
      { parser with state := .headerValue, index := 0, contentLength := digit ch } := by
    unfold valueStart
    rw [hstate]
    dsimp only
    rw [if_neg (by simp [hdigit])]
  have hfirst : digit ch = CString.value 10 [ch] := by
    rw [← List.nil_append [ch], CString.value_concat, CString.digitValue, if_pos hdigit]
    exact (Nat.zero_add _).symm
  rw [hstart]
  exact valueBytes_digits [ch] hstate hfirst
    (fun c hc => hdigits c (List.mem_cons_of_mem _ hc)) hbound

/-! ## Words -/

/-- The matcher moves on and nothing else changes. -/
def Alters (before after : HttpParser) : Prop :=
  ∃ i h, after = { before with index := i, headerState := h }

theorem Alters.refl (parser : HttpParser) : parser.Alters parser :=
  ⟨parser.index, parser.headerState, rfl⟩

theorem Alters.trans {a b d : HttpParser} (h : a.Alters b) (h' : b.Alters d) : a.Alters d := by
  obtain ⟨i, state, rfl⟩ := h
  obtain ⟨i', state', rfl⟩ := h'
  exact ⟨i', state', rfl⟩

/-- A state of the matcher in which it looks for a word in a value, as long as no byte of the
    value ends the word. -/
structure Seeks (word : Bytes) (state found miss : HeaderStates) (goesOn : UInt8 → Prop) :
    Prop where
  reads : ∀ parser ch, parser.headerState = state →
    valueByte ch parser = parser.matchWord word found miss (lower ch)
  ends : ∀ parser ch, parser.headerState = found → goesOn ch →
    valueByte ch parser = { parser with headerState := miss }
  misses : ∀ parser ch, parser.state = .headerValue → parser.headerState = miss → goesOn ch →
    valueByte ch parser = parser

variable {goesOn : UInt8 → Prop}

theorem valueBytes_tracks (run : Bytes) (hseeks : Seeks word state found miss goesOn)
    (hrun : ∀ ch ∈ run, goesOn ch) (hs : parser.state = .headerValue)
    (h : Tracks state found miss parser (progress word text)) :
    Tracks state found miss (parser.valueBytes run) (progress word (text ++ run.map lower)) ∧
      parser.Alters (parser.valueBytes run) := by
  induction run generalizing parser text with
  | nil =>
    rw [List.map_nil, List.append_nil]
    exact ⟨h, .refl _⟩
  | cons ch run ih =>
    have hgoes := hrun ch List.mem_cons_self
    have hstep : Tracks state found miss (parser.valueByte ch)
        (progress word (text ++ [lower ch])) ∧ parser.Alters (parser.valueByte ch) := by
      -- Within the word, behind its end, or after a byte that misses it.
      rw [progress_append]
      cases hp : progress word text with
      | within k =>
        rw [hp] at h
        rw [hseeks.reads parser ch h.1]
        exact ⟨matchWord_tracks h (lt_of_progress hp), _, _, rfl⟩
      | complete =>
        rw [hp] at h
        rw [hseeks.ends parser ch h hgoes]
        exact ⟨rfl, _, _, rfl⟩
      | off =>
        rw [hp] at h
        rw [hseeks.misses parser ch hs h hgoes]
        exact ⟨h, .refl _⟩
    obtain ⟨htracks, halters⟩ := hstep
    have hstate : (parser.valueByte ch).state = .headerValue := by
      obtain ⟨i, state, heq⟩ := halters
      rw [heq]
      exact hs
    obtain ⟨hrest, halters'⟩ :=
      ih (fun c hc => hrun c (List.mem_cons_of_mem _ hc)) hstate htracks
    rw [List.append_assoc, List.singleton_append, ← List.map_cons] at hrest
    exact ⟨hrest, halters.trans halters'⟩

/-- What a state of the matcher at the end of a value does to the flags. -/
def Sets (h : HeaderStates) (f : Flags → Flags) : Prop :=
  ∀ parser : HttpParser, parser.headerState = h →
    parser.finishHeader = { parser with flags := f parser.flags }

theorem sets_id (h : HeaderStates) (hchunked : h ≠ .transferEncodingChunked)
    (hkeepAlive : h ≠ .connectionKeepAlive) (hclose : h ≠ .connectionClose)
    (hupgrade : h ≠ .connectionUpgrade) : Sets h id := by
  rintro parser rfl
  unfold finishHeader
  split
  case h_1 h => exact absurd h hchunked
  case h_2 =>
    unfold connectionFlag
    split
    exacts [absurd ‹_› hkeepAlive, absurd ‹_› hclose, absurd ‹_› hupgrade, rfl]

theorem sets_chunked : Sets .transferEncodingChunked fun flags => { flags with chunked := true } :=
  fun parser h => by rw [finishHeader, h]

/-! ## The encoding -/

theorem seeks_chunked : Seeks chunkedWord .matchingTransferEncodingChunked
    .transferEncodingChunked .general (· ≠ byte ' ') where
  reads parser ch h := by rw [valueByte, h]
  ends parser ch h hch := by rw [valueByte, h, if_pos hch]
  misses _ _ hs h _ := valueByte_general hs h

/-- After the word, only spaces may follow. -/
theorem chunked_ends (hs : parser.state = .headerValue)
    (h : parser.headerState = .transferEncodingChunked) (w : Bytes) :
    ∃ i, parser.valueBytes w = { parser with
      index := i
      headerState := if w.all (· = byte ' ') then .transferEncodingChunked else .general } := by
  induction w with
  | nil => exact ⟨parser.index, by rw [List.all_nil, if_pos rfl, ← h]; rfl⟩
  | cons ch w ih =>
    by_cases hch : ch = byte ' '
    · have hbyte : parser.valueByte ch = parser := by
        rw [valueByte, h]
        exact if_neg (not_not.mpr hch)
      rw [valueBytes_cons, hbyte, List.all_cons, decide_eq_true hch, Bool.true_and]
      exact ih
    · have hbyte : parser.valueByte ch = { parser with headerState := .general } :=
        seeks_chunked.ends parser ch h hch
      have hafter : HttpParser.state { parser with headerState := .general } = .headerValue := hs
      rw [valueBytes_cons, hbyte, List.all_cons, decide_eq_false hch, Bool.false_and,
        valueBytes_general hafter rfl]
      exact ⟨_, rfl⟩

/-- What is left of the matcher when the name of an encoding is read. -/
theorem chunked_read (hs : parser.state = .headerValue)
    (h : Tracks .matchingTransferEncodingChunked .transferEncodingChunked .general parser
      (progress chunkedWord text)) (hw : CString.StopsAt (· ≠ byte ' ') w) :
    ∃ i h, parser.valueBytes w = { parser with index := i, headerState := h } ∧
      Sets h fun flags => if text = chunkedWord ∧ w.all (· = byte ' ') = true then
        { flags with chunked := true } else flags := by
  have hne : progress chunkedWord text ≠ .complete →
      ¬(text = chunkedWord ∧ w.all (· = byte ' ') = true) := fun hp hc =>
    hp (progress_eq_complete_iff.mpr hc.1)
  cases hp : progress chunkedWord text with
  | complete =>
    rw [hp] at h
    obtain ⟨i, heq⟩ := chunked_ends hs h w
    refine ⟨i, _, heq, ?_⟩
    by_cases hall : w.all (· = byte ' ') = true
    · simp only [hall, progress_eq_complete_iff.mp hp, and_self, if_true]
      exact sets_chunked
    · simp only [hall, Bool.false_eq_true, and_false, if_false]
      exact sets_id _ (by decide) (by decide) (by decide) (by decide)
  | within k =>
    rw [hp] at h
    simp only [hne (by simp [hp]), if_false]
    -- The name is too short, and a space is the next byte.
    cases w with
    | nil => exact ⟨_, _, rfl, h.1 ▸ sets_id _ (by decide) (by decide) (by decide) (by decide)⟩
    | cons c w =>
      obtain rfl : c = byte ' ' := by simpa using hw
      have hspace : chunkedWord[k]? ≠ some (lower (byte ' ')) := fun h =>
        absurd (List.mem_of_getElem? h) (by decide)
      have hmiss := matchWord_tracks (c := lower (byte ' ')) h (lt_of_progress hp)
      rw [advance, if_neg hspace] at hmiss
      obtain ⟨after, hafter, hs', hgeneral, i, state, heq⟩ : ∃ after,
          parser.valueByte (byte ' ') = after ∧ after.state = .headerValue ∧
            after.headerState = .general ∧ parser.Alters after :=
        ⟨_, seeks_chunked.reads parser _ h.1, hs, hmiss, _, _, rfl⟩
      rw [valueBytes_cons, hafter, valueBytes_general hs' hgeneral]
      obtain rfl : state = .general := by rwa [heq] at hgeneral
      exact ⟨i, _, heq, sets_id _ (by decide) (by decide) (by decide) (by decide)⟩
  | off =>
    rw [hp] at h
    have hgeneral : parser.headerState = .general := h
    simp only [hne (by simp [hp]), if_false]
    rw [valueBytes_general hs h]
    exact ⟨_, _, rfl, hgeneral ▸ sets_id _ (by decide) (by decide) (by decide) (by decide)⟩

/-- The value of an encoding makes chunks if it says so. -/
theorem chunked_recognised (hstate : parser.headerState = .transferEncoding)
    (hch : ch ≠ byte ' ') (w : Bytes) : ∃ i h,
      (parser.valueStart ch).valueBytes w =
        { parser with state := .headerValue, index := i, headerState := h } ∧
      Sets h fun flags =>
        if isChunked (ch :: w) then { flags with chunked := true } else flags := by
  have hstart : parser.valueStart ch = { parser with
      state := .headerValue
      index := 0
      headerState :=
        if lower ch = byte 'c' then .matchingTransferEncodingChunked else .general } := by
    unfold valueStart
    rw [hstate]
  have hchunked : isChunked (ch :: w) = true ↔
      (lower ch :: (w.takeWhile (· ≠ byte ' ')).map lower = chunkedWord) ∧
        (w.dropWhile (· ≠ byte ' ')).all (· = byte ' ') = true := by
    rw [isChunked, List.takeWhile_cons_of_pos (by simpa using hch),
      List.dropWhile_cons_of_pos (by simpa using hch), List.map_cons, Bool.and_eq_true,
      decide_eq_true_eq]
  simp only [hstart, hchunked]
  by_cases hc : lower ch = byte 'c'
  · simp only [hc, if_true]
    have hfirst : Tracks .matchingTransferEncodingChunked .transferEncodingChunked .general
        { parser with state := .headerValue, index := 0,
                      headerState := .matchingTransferEncodingChunked }
        (progress chunkedWord [byte 'c']) := by
      rw [show progress chunkedWord [byte 'c'] = .within 1 by decide]
      exact ⟨rfl, rfl⟩
    obtain ⟨htracks, i, state, heq⟩ := valueBytes_tracks
      (w.takeWhile (· ≠ byte ' ')) seeks_chunked
      (fun c hc => by simpa using List.mem_takeWhile_imp hc)
      rfl hfirst
    obtain ⟨i', state', heq', hsets⟩ :=
      chunked_read (by rw [heq]) htracks (CString.stopsAt_dropWhile (· ≠ byte ' ') w)
    rw [← valueBytes_append, List.takeWhile_append_dropWhile] at heq'
    exact ⟨i', state', heq'.trans (by rw [heq]), hsets⟩
  · have hne : ∀ l, lower ch :: l ≠ chunkedWord := fun l h => hc (List.head_eq_of_cons_eq h)
    simp only [hc, hne, false_and, if_false]
    exact ⟨_, _, valueBytes_general rfl rfl w, sets_id _ nofun nofun nofun nofun⟩

/-! ## The options of a connection -/

/-- No space and no comma. -/
def InOption (ch : UInt8) : Prop := ch ≠ byte ' ' ∧ ch ≠ byte ','

/-- The state for an option that is known, when its first letter was read. -/
def optionStart (ch : UInt8) : HeaderStates :=
  if lower ch = byte 'k' then .matchingConnectionKeepAlive
  else if lower ch = byte 'c' then .matchingConnectionClose
  else if lower ch = byte 'u' then .matchingConnectionUpgrade
  else .matchingConnectionToken

/-- The state after an option. -/
def optionState (option : Bytes) : HeaderStates :=
  if option.map lower = keepAliveWord then .connectionKeepAlive
  else if option.map lower = closeWord then .connectionClose
  else if option.map lower = upgradeWord then .connectionUpgrade
  else .matchingConnectionToken

theorem misses_option (parser : HttpParser) (ch : UInt8)
    (h : parser.headerState = .matchingConnectionToken) (hch : ch ≠ byte ',') :
    parser.valueByte ch = parser := by
  rw [valueByte, h]
  exact if_neg hch

theorem ends_option (parser : HttpParser) (ch : UInt8)
    (h : parser.headerState = .connectionKeepAlive ∨ parser.headerState = .connectionClose ∨
      parser.headerState = .connectionUpgrade) (hch : InOption ch) :
    parser.valueByte ch = { parser with headerState := .matchingConnectionToken } := by
  unfold valueByte
  rcases h with h | h | h <;>
    (rw [h]; exact (if_neg hch.2).trans (if_pos hch.1))

theorem seeks_keepAlive : Seeks keepAliveWord .matchingConnectionKeepAlive .connectionKeepAlive
    .matchingConnectionToken InOption where
  reads parser ch h := by rw [valueByte, h]
  ends parser ch h hch := ends_option parser ch (.inl h) hch
  misses parser ch _ h hch := misses_option parser ch h hch.2

theorem seeks_close : Seeks closeWord .matchingConnectionClose .connectionClose
    .matchingConnectionToken InOption where
  reads parser ch h := by rw [valueByte, h]
  ends parser ch h hch := ends_option parser ch (.inr (.inl h)) hch
  misses parser ch _ h hch := misses_option parser ch h hch.2

theorem seeks_upgrade : Seeks upgradeWord .matchingConnectionUpgrade .connectionUpgrade
    .matchingConnectionToken InOption where
  reads parser ch h := by rw [valueByte, h]
  ends parser ch h hch := ends_option parser ch (.inr (.inr h)) hch
  misses parser ch _ h hch := misses_option parser ch h hch.2

/-- An option that begins with the first letter of a known one. -/
theorem option_of_first (hseeks : Seeks word state found .matchingConnectionToken InOption)
    (hstate : parser.headerState = state) (hindex : parser.index = 0)
    (hs : parser.state = .headerValue) (hprogress : progress word [lower ch] = .within 1)
    (hrun : ∀ ch ∈ run, InOption ch)
    (hwhole : (ch :: run).map lower <+: word → (ch :: run).map lower = word) :
    ∃ i, parser.valueBytes run = { parser with
      index := i
      headerState := if (ch :: run).map lower = word then found
        else .matchingConnectionToken } := by
  have hfirst : Tracks state found .matchingConnectionToken parser (progress word [lower ch]) := by
    rw [hprogress]
    exact ⟨hstate, by rw [hindex]⟩
  obtain ⟨htracks, i, h, heq⟩ := valueBytes_tracks run hseeks hrun hs hfirst
  rw [List.singleton_append, ← List.map_cons, heq] at htracks
  refine ⟨i, ?_⟩
  cases hp : progress word ((ch :: run).map lower) with
  | within k =>
    -- the option does not break off
    obtain ⟨hpre, hne, -⟩ := prefix_of_progress hp
    exact absurd (hwhole hpre) hne
  | complete =>
    rw [hp] at htracks
    obtain rfl : h = found := htracks
    rw [heq, if_pos (progress_eq_complete_iff.mp hp)]
  | off =>
    rw [hp] at htracks
    obtain rfl : h = .matchingConnectionToken := htracks
    rw [heq, if_neg fun hword => by rw [progress_eq_complete_iff.mpr hword] at hp; cases hp]

theorem valueBytes_token (h : parser.headerState = .matchingConnectionToken)
    (hrun : ∀ ch ∈ run, InOption ch) : parser.valueBytes run = parser := by
  induction run with
  | nil => rfl
  | cons ch run ih =>
    rw [valueBytes_cons, misses_option parser ch h (hrun ch List.mem_cons_self).2]
    exact ih fun c hc => hrun c (List.mem_cons_of_mem _ hc)

/-- Two words with different first letters. -/
theorem ne_of_first (word : Bytes) {a b : UInt8} {l : Bytes} (hne : a ≠ b)
    (hword : word.head? = some b) : a :: l ≠ word := by
  rintro rfl
  exact hne (Option.some.inj hword)

/-- The whole option is read. -/
theorem option_read (parser : HttpParser) (hoption : IsOption (ch :: run))
    (hstate : parser.headerState = optionStart ch) (hindex : parser.index = 0)
    (hs : parser.state = .headerValue) :
    ∃ i, parser.valueBytes run =
      { parser with index := i, headerState := optionState (ch :: run) } := by
  have hrun : ∀ ch ∈ run, InOption ch := fun c hc => hoption.text c (List.mem_cons_of_mem _ hc)
  have hk : byte 'k' ≠ byte 'c' ∧ byte 'k' ≠ byte 'u' ∧ byte 'c' ≠ byte 'u' := by decide
  unfold optionState
  rw [optionStart] at hstate
  by_cases hkeepAlive : lower ch = byte 'k'
  · rw [if_pos hkeepAlive] at hstate
    rw [List.map_cons, hkeepAlive, if_neg (ne_of_first closeWord hk.1 rfl),
      if_neg (ne_of_first upgradeWord hk.2.1 rfl), ← hkeepAlive, ← List.map_cons]
    exact option_of_first seeks_keepAlive hstate hindex hs (by rw [hkeepAlive]; decide) hrun
      (hoption.whole _ (by simp))
  rw [if_neg hkeepAlive] at hstate
  rw [List.map_cons, if_neg (ne_of_first keepAliveWord hkeepAlive rfl), ← List.map_cons]
  by_cases hclose : lower ch = byte 'c'
  · rw [if_pos hclose] at hstate
    rw [List.map_cons, hclose, if_neg (ne_of_first upgradeWord hk.2.2 rfl), ← hclose,
      ← List.map_cons]
    exact option_of_first seeks_close hstate hindex hs (by rw [hclose]; decide) hrun
      (hoption.whole _ (by simp))
  rw [if_neg hclose] at hstate
  rw [List.map_cons, if_neg (ne_of_first closeWord hclose rfl), ← List.map_cons]
  by_cases hupgrade : lower ch = byte 'u'
  · rw [if_pos hupgrade] at hstate
    exact option_of_first seeks_upgrade hstate hindex hs (by rw [hupgrade]; decide) hrun
      (hoption.whole _ (by simp))
  · rw [if_neg hupgrade] at hstate
    rw [List.map_cons, if_neg (ne_of_first upgradeWord hupgrade rfl),
      valueBytes_token hstate hrun]
    exact ⟨parser.index, by rw [← hstate]⟩

theorem optionState_cases (option : Bytes) :
    optionState option = .connectionKeepAlive ∨ optionState option = .connectionClose ∨
      optionState option = .connectionUpgrade ∨
        optionState option = .matchingConnectionToken := by
  unfold optionState
  split_ifs <;> simp

theorem connectionFlag_option (h : parser.headerState = optionState option) :
    parser.connectionFlag = { parser with flags := parser.flags.option option } := by
  unfold connectionFlag Flags.option
  unfold optionState at h
  split_ifs at h ⊢ <;> rw [h]
  exact congrArg (fun s => { parser with headerState := s }) h

theorem sets_optionState (option : Bytes) : Sets (optionState option) (·.option option) := by
  intro parser h
  rw [← connectionFlag_option h]
  unfold finishHeader
  split
  case h_1 hchunked =>
    rw [h] at hchunked
    rcases optionState_cases option with hcase | hcase | hcase | hcase <;>
      (rw [hcase] at hchunked; cases hchunked)
  case h_2 => rfl

/-- The comma after an option. -/
theorem valueByte_comma (h : parser.headerState = optionState option) :
    parser.valueByte (byte ',') = { parser with
      index := 0
      headerState := .matchingConnectionTokenStart
      flags := parser.flags.option option } := by
  have hflag := connectionFlag_option h
  unfold valueByte
  rcases optionState_cases option with hcase | hcase | hcase | hcase <;>
    (rw [h, hcase]; dsimp only; rw [if_pos rfl])
  iterate 3 rw [hflag]
  have hsame : parser.connectionFlag = parser := by rw [connectionFlag, h, hcase]
  have hflags : parser.flags = parser.flags.option option :=
    congrArg HttpParser.flags (hsame.symm.trans hflag)
  rw [← hflags]

/-- The space after a comma. -/
theorem valueByte_space (h : parser.headerState = .matchingConnectionTokenStart) :
    parser.valueByte (byte ' ') = parser := by
  have hspace : (if lower (byte ' ') = byte 'k' then HeaderStates.matchingConnectionKeepAlive
      else if lower (byte ' ') = byte 'c' then .matchingConnectionClose
      else if lower (byte ' ') = byte 'u' then .matchingConnectionUpgrade
      else if token (lower (byte ' ')) ≠ 0 then .matchingConnectionToken
      else if lower (byte ' ') = byte ' ' ∨ lower (byte ' ') = 9 then
        .matchingConnectionTokenStart
      else .general) = .matchingConnectionTokenStart := by decide
  rw [valueByte, h]
  dsimp only
  rw [hspace, ← h]

/-- The first letter of an option after a comma. -/
theorem valueByte_first (h : parser.headerState = .matchingConnectionTokenStart)
    (hch : token (lower ch) ≠ 0) :
    parser.valueByte ch = { parser with headerState := optionStart ch } := by
  unfold valueByte optionStart
  rw [h]
  dsimp only
  rw [if_pos hch]

/-- The options after one. -/
theorem moreOptions_read (parser : HttpParser) {options : List Bytes}
    (hoptions : ∀ option ∈ options, IsOption option)
    (h : parser.headerState = optionState option) (hs : parser.state = .headerValue) :
    ∃ i last flags, parser.valueBytes (moreOptions options) =
        { parser with index := i, headerState := optionState last, flags := flags } ∧
      flags.option last = options.foldl Flags.option (parser.flags.option option) := by
  induction options generalizing parser option with
  | nil => exact ⟨parser.index, option, parser.flags, by rw [← h]; rfl, rfl⟩
  | cons next options ih =>
    have hnext := hoptions next List.mem_cons_self
    obtain ⟨ch, run, rfl⟩ := List.exists_cons_of_ne_nil hnext.ne_nil
    have hfirst := hnext.first ch rfl
    obtain ⟨i, hread⟩ := option_read { parser with
      index := 0, headerState := optionStart ch, flags := parser.flags.option option }
      hnext rfl rfl hs
    obtain ⟨i', last, flags, hmore, hflags⟩ :=
      ih { parser with
        index := i, headerState := optionState (ch :: run),
        flags := parser.flags.option option } (fun o ho => hoptions o (List.mem_cons_of_mem _ ho))
        rfl hs
    refine ⟨i', last, flags, ?_, hflags⟩
    rw [moreOptions, List.flatMap_cons, List.cons_append, List.cons_append, List.cons_append,
      valueBytes_cons, valueByte_comma h, valueBytes_cons, valueByte_space rfl, valueBytes_cons,
      valueByte_first rfl hfirst, valueBytes_append]
    exact (congrArg _ hread).trans hmore

/-- The options of a connection. -/
theorem options_read {options : List Bytes} (hstate : parser.headerState = .connection)
    (hoptions : ∀ option ∈ (ch :: run) :: options, IsOption option) :
    ∃ i last flags, (parser.valueStart ch).valueBytes (run ++ moreOptions options) =
        { parser with
          state := .headerValue, index := i, headerState := optionState last, flags := flags } ∧
      flags.option last = ((ch :: run) :: options).foldl Flags.option parser.flags := by
  have hstart : parser.valueStart ch =
      { parser with state := .headerValue, index := 0, headerState := optionStart ch } := by
    unfold valueStart
    rw [hstate]
    rfl
  obtain ⟨i, hread⟩ := option_read { parser with
    state := .headerValue, index := 0, headerState := optionStart ch }
    (hoptions _ List.mem_cons_self) rfl rfl rfl
  obtain ⟨i', last, flags, hmore, hflags⟩ := moreOptions_read { parser with
    state := .headerValue, index := i, headerState := optionState (ch :: run) }
    (fun o ho => hoptions o (List.mem_cons_of_mem _ ho)) rfl rfl
  refine ⟨i', last, flags, ?_, hflags⟩
  rw [hstart, valueBytes_append]
  exact (congrArg _ hread).trans hmore

end HttpParser

end Wrkx
