import Wrkx.Base.Keyword
import Wrkx.Http.Asserts

/-!
# The matcher for headers

While the bytes of a header name and of its value go by, the parser looks for the few names and
values that it has to know. What it has found in the end is what stands in the text.

## Main results

- `name_recognised` — the names that matter are told from all others, in any case of their letters
-/

namespace Wrkx

open Keyword

namespace HttpParser

variable {parser : HttpParser} {word run text : Bytes} {state found miss : HeaderStates}
  {c ch : UInt8} {k : ℕ}

/-! ## Words -/

/-- The parser knows how far the text before it agrees with a word. -/
def Tracks (state found miss : HeaderStates) (parser : HttpParser) :
    Progress → Prop
  | .within k => parser.headerState = state ∧ parser.index + 1 = k
  | .complete => parser.headerState = found
  | .off => parser.headerState = miss

theorem matchWord_tracks (h : Tracks state found miss parser (.within k))
    (hk : k < word.length) :
    Tracks state found miss (parser.matchWord word found miss c)
      (advance word c (.within k)) := by
  obtain ⟨hstate, rfl⟩ := h
  have hletter : word[parser.index + 1]? = some c ↔ c = word.getD (parser.index + 1) 0 := by
    rw [List.getD_eq_getElem?_getD, List.getElem?_eq_getElem hk, Option.some.injEq, eq_comm]
    rfl
  unfold matchWord advance
  dsimp only
  by_cases hc : c = word.getD (parser.index + 1) 0
  · rw [if_pos (hletter.mpr hc), if_neg (by simp only [not_or, not_lt, not_not]; exact ⟨hk.le, hc⟩)]
    by_cases hlast : parser.index + 1 = word.length - 1
    · rw [if_pos hlast, if_pos (by omega)]
      rfl
    · rw [if_neg hlast, if_neg (by omega)]
      exact ⟨hstate, rfl⟩
  · rw [if_neg fun h => hc (hletter.mp h), if_pos (.inr hc)]
    rfl

/-! ## Names -/

/-- A state of the matcher in which it looks for a word in a name. -/
structure Looks (word : Bytes) (state found : HeaderStates) : Prop where
  reads : ∀ (parser : HttpParser) (ch c : UInt8), parser.headerState = state →
    parser.fieldByte ch c = parser.matchWord word found .general c
  ends : ∀ (parser : HttpParser) (ch c : UInt8), parser.headerState = found → ch ≠ byte ' ' →
    (parser.fieldByte ch c).headerState = .general

theorem ne_space_of_token (h : token ch ≠ 0) : ch ≠ byte ' ' := by
  rintro rfl
  exact h (by decide)

theorem fieldByte_general (h : parser.headerState = .general) :
    parser.fieldByte ch c = parser := by
  rw [fieldByte, h]

theorem fieldRun_tracks (hlooks : Looks word state found) (hrun : ∀ ch ∈ run, token ch ≠ 0)
    (h : Tracks state found .general parser (progress word text)) :
    Tracks state found .general (parser.fieldRun run)
      (progress word (text ++ run.map token)) := by
  induction run generalizing parser text with
  | nil => rwa [List.map_nil, List.append_nil]
  | cons ch run ih =>
    have hstep : Tracks state found .general (parser.fieldByte ch (token ch))
        (progress word (text ++ [token ch])) := by
      rw [progress_append]
      cases hp : progress word text with
      | within k =>
        rw [hp] at h
        rw [hlooks.reads parser ch _ h.1]
        exact matchWord_tracks h (lt_of_progress hp)
      | complete =>
        rw [hp] at h
        exact hlooks.ends parser ch _ h (ne_space_of_token (hrun ch List.mem_cons_self))
      | off =>
        rw [hp] at h
        exact (congrArg headerState (fieldByte_general h)).trans h
    have hrest := ih (fun c hc => hrun c (List.mem_cons_of_mem _ hc)) hstep
    rwa [List.append_assoc, List.singleton_append, ← List.map_cons] at hrest

theorem looks_connection : Looks connectionWord .matchingConnection .connection where
  reads _ _ _ h := by rw [fieldByte, h]
  ends _ _ _ h hch := by rw [fieldByte, h, if_pos hch]

theorem looks_proxyConnection :
    Looks proxyConnectionWord .matchingProxyConnection .connection where
  reads _ _ _ h := by rw [fieldByte, h]
  ends _ _ _ h hch := by rw [fieldByte, h, if_pos hch]

theorem looks_contentLength :
    Looks contentLengthWord .matchingContentLength .contentLength where
  reads _ _ _ h := by rw [fieldByte, h]
  ends _ _ _ h hch := by rw [fieldByte, h, if_pos hch]

theorem looks_transferEncoding :
    Looks transferEncodingWord .matchingTransferEncoding .transferEncoding where
  reads _ _ _ h := by rw [fieldByte, h]
  ends _ _ _ h hch := by rw [fieldByte, h, if_pos hch]

theorem looks_upgrade : Looks upgradeWord .matchingUpgrade .upgrade where
  reads _ _ _ h := by rw [fieldByte, h]
  ends _ _ _ h hch := by rw [fieldByte, h, if_pos hch]

/-- The names that matter, as the state that stands for them at the end of a name. -/
def special : HeaderStates → HeaderStates
  | .connection => .connection
  | .contentLength => .contentLength
  | .transferEncoding => .transferEncoding
  | .upgrade => .upgrade
  | _ => .general

/-- What a name means to the parser. -/
def nameKind (name : Bytes) : HeaderStates :=
  if name = connectionWord ∨ name = proxyConnectionWord then .connection
  else if name = contentLengthWord then .contentLength
  else if name = transferEncodingWord then .transferEncoding
  else if name = upgradeWord then .upgrade
  else .general

theorem special_of_tracks (hstate : special state = .general)
    (hfound : special found = found) (h : Tracks state found .general parser (progress word text)) :
    special parser.headerState = if text = word then found else .general := by
  cases hp : progress word text with
  | within k =>
    rw [hp] at h
    have hne : text ≠ word := fun heq => by
      rw [progress_eq_complete_iff.mpr heq] at hp
      cases hp
    rw [if_neg hne, h.1, hstate]
  | complete =>
    rw [hp] at h
    rw [if_pos (progress_eq_complete_iff.mp hp)]
    exact (congrArg special h).trans hfound
  | off =>
    rw [hp] at h
    have hne : text ≠ word := fun heq => by
      rw [progress_eq_complete_iff.mpr heq] at hp
      cases hp
    rw [if_neg hne]
    exact congrArg special h

/-- The parser after the first byte of a name. -/
def startField (ch : UInt8) (parser : HttpParser) : HttpParser :=
  { parser with index := 0, state := .headerField, headerState := firstFieldByte (token ch) }

/-- A name that begins with the first letter of a single word. -/
theorem name_of_first (hlooks : Looks word state found) (hstate : special state = .general)
    (hfound : special found = found) (hfirst : firstFieldByte (token ch) = state)
    (hprogress : progress word [token ch] = .within 1) (hrun : ∀ ch ∈ run, token ch ≠ 0) :
    special ((parser.startField ch).fieldRun run).headerState =
      if (ch :: run).map token = word then found else .general := by
  have hstart : Tracks state found .general (parser.startField ch) (progress word [token ch]) := by
    rw [hprogress]
    exact ⟨hfirst, rfl⟩
  exact special_of_tracks hstate hfound (fieldRun_tracks hlooks hrun hstart)

theorem fieldRun_cons (ch : UInt8) (run : Bytes) :
    parser.fieldRun (ch :: run) = (parser.fieldByte ch (token ch)).fieldRun run := rfl

theorem fieldRun_general (h : parser.headerState = .general) (run : Bytes) :
    parser.fieldRun run = parser := by
  induction run with
  | nil => rfl
  | cons ch run ih => rw [fieldRun_cons, fieldByte_general h, ih]

theorem special_general (h : parser.headerState = .general) (run : Bytes) :
    special (parser.fieldRun run).headerState = .general := by
  rw [fieldRun_general h, h]
  rfl

/-- The first letter tells most of the words apart. -/
theorem nameKind_of_first {a : UInt8} (l : Bytes) (hc : a ≠ byte 'c') (hp : a ≠ byte 'p')
    (ht : a ≠ byte 't') (hu : a ≠ byte 'u') : nameKind (a :: l) = .general := by
  have hfirst : ∀ {word : Bytes}, a :: l = word → some a = word[0]? :=
    fun h => congrArg (·[0]?) h
  have hconnection : a :: l ≠ connectionWord := fun h => hc (Option.some.inj (hfirst h))
  have hproxy : a :: l ≠ proxyConnectionWord := fun h => hp (Option.some.inj (hfirst h))
  have hlength : a :: l ≠ contentLengthWord := fun h => hc (Option.some.inj (hfirst h))
  have hencoding : a :: l ≠ transferEncodingWord := fun h => ht (Option.some.inj (hfirst h))
  have hupgrade : a :: l ≠ upgradeWord := fun h => hu (Option.some.inj (hfirst h))
  simp only [nameKind, hconnection, hproxy, hlength, hencoding, hupgrade, or_self, if_false]

/-- A name that begins with `c`. -/
theorem nameKind_of_c (l : Bytes) : nameKind (byte 'c' :: l) =
    if byte 'c' :: l = connectionWord then .connection
    else if byte 'c' :: l = contentLengthWord then .contentLength
    else .general := by
  have hne : ∀ {word : Bytes}, some (byte 'c') ≠ word[0]? → byte 'c' :: l ≠ word :=
    fun h h' => h (congrArg (·[0]?) h')
  have hproxy : byte 'c' :: l ≠ proxyConnectionWord := hne (by decide)
  have hencoding : byte 'c' :: l ≠ transferEncodingWord := hne (by decide)
  have hupgrade : byte 'c' :: l ≠ upgradeWord := hne (by decide)
  simp only [nameKind, hproxy, hencoding, hupgrade, or_false, if_false]

/-- A name whose letter at some place is in neither of the two words that begin with `c`. -/
theorem nameKind_of_letter {l : Bytes} {a : UInt8} (k : ℕ) (ha : (byte 'c' :: l)[k]? = some a)
    (h : connectionWord[k]? ≠ some a) (h' : contentLengthWord[k]? ≠ some a) :
    nameKind (byte 'c' :: l) = .general := by
  have hne : byte 'c' :: l ≠ connectionWord := fun heq => h (heq ▸ ha)
  have hne' : byte 'c' :: l ≠ contentLengthWord := fun heq => h' (heq ▸ ha)
  rw [nameKind_of_c, if_neg hne, if_neg hne']

/-- The two words that begin alike. -/
theorem con_recognised (hstate : parser.headerState = .con) (hindex : parser.index = 2)
    (hrun : ∀ ch ∈ run, token ch ≠ 0) :
    special (parser.fieldRun run).headerState =
      nameKind (byte 'c' :: byte 'o' :: byte 'n' :: run.map token) := by
  cases run with
  | nil =>
    rw [fieldRun, List.foldl_nil, hstate]
    decide
  | cons ch run =>
    have hrest : ∀ ch ∈ run, token ch ≠ 0 := fun c hc => hrun c (List.mem_cons_of_mem _ hc)
    have hbyte : parser.fieldByte ch (token ch) = { parser with
        index := parser.index + 1
        headerState := if token ch = byte 'n' then .matchingConnection
          else if token ch = byte 't' then .matchingContentLength else .general } := by
      rw [fieldByte, hstate]
    rw [fieldRun_cons, hbyte, List.map_cons]
    -- The fourth letter decides which of the two words is looked for.
    by_cases hn : token ch = byte 'n'
    · have hother : byte 'c' :: byte 'o' :: byte 'n' :: byte 'n' :: run.map token ≠
          contentLengthWord := fun h =>
        absurd (Option.some.inj (congrArg (·[3]?) h)) (by decide : byte 'n' ≠ byte 't')
      have hstart : Tracks .matchingConnection .connection .general
          { parser with index := parser.index + 1, headerState := .matchingConnection }
          (progress connectionWord [byte 'c', byte 'o', byte 'n', byte 'n']) :=
        ⟨rfl, congrArg (· + 1 + 1) hindex⟩
      rw [hn, if_pos rfl, nameKind_of_c, if_neg hother]
      exact special_of_tracks rfl rfl (fieldRun_tracks looks_connection hrest hstart)
    by_cases ht : token ch = byte 't'
    · have hother : byte 'c' :: byte 'o' :: byte 'n' :: byte 't' :: run.map token ≠
          connectionWord := fun h =>
        absurd (Option.some.inj (congrArg (·[3]?) h)) (by decide : byte 't' ≠ byte 'n')
      have hstart : Tracks .matchingContentLength .contentLength .general
          { parser with index := parser.index + 1, headerState := .matchingContentLength }
          (progress contentLengthWord [byte 'c', byte 'o', byte 'n', byte 't']) :=
        ⟨rfl, congrArg (· + 1 + 1) hindex⟩
      rw [ht, if_neg (by decide), if_pos rfl, nameKind_of_c, if_neg hother]
      exact special_of_tracks rfl rfl (fieldRun_tracks looks_contentLength hrest hstart)
    · rw [if_neg hn, if_neg ht, special_general rfl, nameKind_of_letter 3 rfl
        (fun h => hn (Option.some.inj h).symm) fun h => ht (Option.some.inj h).symm]

/-- The names that matter are recognised, in any case of their letters, and no others are. -/
theorem name_recognised (hname : ∀ a ∈ ch :: run, token a ≠ 0) :
    special ((parser.startField ch).fieldRun run).headerState =
      nameKind ((ch :: run).map token) := by
  have hrun : ∀ ch ∈ run, token ch ≠ 0 := fun c hc => hname c (List.mem_cons_of_mem _ hc)
  rw [List.map_cons]
  by_cases hp : token ch = byte 'p'
  · rw [name_of_first looks_proxyConnection rfl rfl (by rw [hp]; rfl) (by rw [hp]; decide) hrun,
      List.map_cons, hp]
    simp [nameKind, connectionWord, proxyConnectionWord, contentLengthWord, transferEncodingWord,
      upgradeWord]
  by_cases ht : token ch = byte 't'
  · rw [name_of_first looks_transferEncoding rfl rfl (by rw [ht]; rfl) (by rw [ht]; decide) hrun,
      List.map_cons, ht]
    simp [nameKind, connectionWord, proxyConnectionWord, contentLengthWord, transferEncodingWord,
      upgradeWord]
  by_cases hu : token ch = byte 'u'
  · rw [name_of_first looks_upgrade rfl rfl (by rw [hu]; rfl) (by rw [hu]; decide) hrun,
      List.map_cons, hu]
    simp [nameKind, connectionWord, proxyConnectionWord, contentLengthWord, transferEncodingWord,
      upgradeWord]
  -- After a c the letters are looked at one by one, since two words begin alike.
  by_cases hc : token ch = byte 'c'
  · have hfirst : (parser.startField ch).headerState = .c := by rw [startField, hc]; rfl
    rw [hc]
    cases run with
    | nil =>
      rw [fieldRun, List.foldl_nil, hfirst]
      decide
    | cons o run =>
      have hbyte : (parser.startField ch).fieldByte o (token o) = { parser.startField ch with
          index := 1, headerState := if token o = byte 'o' then .co else .general } := by
        rw [fieldByte, hfirst]
        rfl
      rw [fieldRun_cons, hbyte, List.map_cons]
      by_cases ho : token o = byte 'o'
      · rw [if_pos ho, ho]
        cases run with
        | nil => exact (by decide : HeaderStates.general = nameKind [byte 'c', byte 'o'])
        | cons n run =>
          have hrest : ∀ ch ∈ run, token ch ≠ 0 := fun c hc =>
            hrun c (List.mem_cons_of_mem _ (List.mem_cons_of_mem _ hc))
          have hbyte : fieldByte n (token n)
              { parser.startField ch with index := 1, headerState := .co } =
              { parser.startField ch with
                index := 2, headerState := if token n = byte 'n' then .con else .general } := rfl
          rw [fieldRun_cons, hbyte, List.map_cons]
          by_cases hn : token n = byte 'n'
          · rw [if_pos hn, hn]
            exact con_recognised rfl rfl hrest
          · have hne : ∀ {word : Bytes}, word[2]? = some (byte 'n') → word[2]? ≠ some (token n) :=
              fun h h' => hn (Option.some.inj (h'.symm.trans h))
            rw [if_neg hn, special_general rfl, nameKind_of_letter 2 rfl (hne rfl) (hne rfl)]
      · have hne : ∀ {word : Bytes}, word[1]? = some (byte 'o') → word[1]? ≠ some (token o) :=
          fun h h' => ho (Option.some.inj (h'.symm.trans h))
        rw [if_neg ho, special_general rfl, nameKind_of_letter 1 rfl (hne rfl) (hne rfl)]
  · have hfirst : firstFieldByte (token ch) = .general := by
      rw [firstFieldByte, if_neg hc, if_neg hp, if_neg ht, if_neg hu]
    rw [special_general hfirst, nameKind_of_first _ hc hp ht hu]

end HttpParser

end Wrkx
