import Wrkx.Lua.Api

/-!
# Copying values between Lua states

`script_copy_value` of `script.c`, with which `thread:get` and `thread:set` move values between
the state of `wrk.setup` and that of a thread.

## Main results

- `scriptCopyValue_length` — a copy never leaves the source stack higher, and that of a table
  takes the table off it
- `deepCopied_iff` — which values are copied
-/

namespace Wrkx

open LuaState

/-! ## The code -/

/-- The loop over the entries of a table, allowed `fuel` rounds, where `copy` is the recursive
    call. -/
def scriptCopyEntries (copy : LuaState → LuaState → ℤ → LuaResult (LuaState × LuaState))
    (index : ℤ) : ℕ → LuaState → LuaState → LuaResult (LuaState × LuaState)
  | 0, _, _ => .error .unfinished
  | fuel + 1, src, dst => do
    let (more, src) ← src.next (index - 1)
    if more then
      -- the value comes first, so that `lua_settable` takes it for the key
      let (src, dst) ← copy src dst (-1)
      let (src, dst) ← copy src dst (-2)
      let dst ← dst.settable (-3)
      let src ← src.pop 1
      scriptCopyEntries copy index fuel src dst
    else
      .ok (src, dst)

/-- `script_copy_value`: the source and the destination afterwards. -/
def scriptCopyValue : ℕ → LuaState → LuaState → ℤ → LuaResult (LuaState × LuaState)
  | 0, _, _, _ => .error .unfinished
  | fuel + 1, src, dst, index => do
    match ← src.index index with
    | .boolean b => .ok (src, dst.push (.boolean b))
    | .nil => .ok (src, dst.push .nil)
    | .number x => .ok (src, dst.push (.number x))
    | .string s => .ok (src, dst.pushString s)
    | .table _ => do
      let (src, dst) ← scriptCopyEntries (scriptCopyValue fuel) index fuel (src.push .nil)
        dst.newTable
      let src ← src.pop 1
      .ok (src, dst)
    | .other typename => .error (.error ("cannot transfer '" ++ typename ++ "' to thread"))

/-- `script_thread_set`, called on `L` for the thread with state `t`: both states afterwards. -/
def scriptThreadSet (fuel : ℕ) (L t : LuaState) : LuaResult (LuaState × LuaState) := do
  let name ← L.toString (-2)
  let (L, t) ← scriptCopyValue fuel L t (-1)
  let t ← t.setGlobal name
  .ok (L, t)

/-- `script_thread_get`, whose result is the value on the top of `L`. -/
def scriptThreadGet (fuel : ℕ) (L t : LuaState) : LuaResult (LuaState × LuaState) := do
  let key ← L.toString (-1)
  let (t, L) ← scriptCopyValue fuel (t.getGlobal key) L (-1)
  let t ← t.pop 1
  .ok (L, t)

/-! ## Values that can be copied -/

/-- A finite value without functions, threads and userdata. The keys of its tables are no
    `nil` and no not-a-number, as no key is. -/
inductive Transferable (tables : List LuaTable) : LuaValue → Prop
  | nil : Transferable tables .nil
  | boolean (b : Bool) : Transferable tables (.boolean b)
  | number (x : LuaNumber) : Transferable tables (.number x)
  | string (s : List UInt8) : Transferable tables (.string s)
  | table {a : ℕ} {t : LuaTable} (ht : tables[a]? = some t)
      (hkey : ∀ e ∈ t.entries, e.1 ≠ .nil ∧ e.1 ≠ .number .nan)
      (hvalue : ∀ e ∈ t.entries, e.2 ≠ .nil)
      (hkeys : ∀ e ∈ t.entries, Transferable tables e.1)
      (hvalues : ∀ e ∈ t.entries, Transferable tables e.2) : Transferable tables (.table a)

/-- Two values of two states are structurally equal: their tables have, in some order, the same
    keys with the same values. -/
inductive SameValue (tables tables' : List LuaTable) : LuaValue → LuaValue → Prop
  | nil : SameValue tables tables' .nil .nil
  | boolean (b : Bool) : SameValue tables tables' (.boolean b) (.boolean b)
  | number (x : LuaNumber) : SameValue tables tables' (.number x) (.number x)
  | string (s : List UInt8) : SameValue tables tables' (.string s) (.string s)
  | table {a a' : ℕ} {t t' : LuaTable} {es : List LuaEntry}
      (ht : tables[a]? = some t) (ht' : tables'[a']? = some t') (hes : es.Perm t'.entries)
      (hlen : es.length = t.entries.length)
      (hkeys : ∀ (i : ℕ) (e e' : LuaEntry), t.entries[i]? = some e →
        es[i]? = some e' → SameValue tables tables' e.1 e'.1)
      (hvalues : ∀ (i : ℕ) (e e' : LuaEntry), t.entries[i]? = some e →
        es[i]? = some e' → SameValue tables tables' e.2 e'.2) :
      SameValue tables tables' (.table a) (.table a')

/-- `script_copy_value` makes a deep copy of the value on the top of the source: it ends, pushes
    one value that is equal to it, and leaves the stack of the source alone; and `thread:get`
    after `thread:set` returns a value that is equal to it. -/
structure DeepCopied (src dst : LuaState) (v : LuaValue) : Prop where
  copied : ∃ fuel src' dst' w, scriptCopyValue fuel src dst (-1) = .ok (src', dst') ∧
    src'.stack = src.stack ∧ dst'.stack = w :: dst.stack ∧
    SameValue src.tables dst'.tables v w
  returned : ∀ (k : List UInt8) (frame frame' : List LuaValue), ∃ fuel L t L' t' w,
    scriptThreadSet fuel { src with stack := v :: .string k :: frame } dst = .ok (L, t) ∧
    scriptThreadGet fuel { L with stack := .string k :: frame' } t = .ok (L', t') ∧
    L'.stack = w :: .string k :: frame' ∧ t'.stack = dst.stack ∧
    SameValue src.tables L'.tables v w

/-! ## The height of the source stack -/

/-- If no copy leaves the source stack higher, the loop over the entries takes one value off. -/
theorem scriptCopyEntries_length
    {copy : LuaState → LuaState → ℤ → LuaResult (LuaState × LuaState)}
    (hcopy : ∀ {src dst i src' dst'}, copy src dst i = .ok (src', dst') →
      src'.stack.length ≤ src.stack.length)
    {index : ℤ} {fuel : ℕ} {src dst src' dst' : LuaState}
    (h : scriptCopyEntries copy index fuel src dst = .ok (src', dst')) :
    src'.stack.length + 1 ≤ src.stack.length := by
  induction fuel generalizing src dst with
  | zero => cases h
  | succ fuel ih =>
    obtain ⟨⟨more, entry⟩, hnext, h⟩ := LuaResult.bind_eq_ok.mp h
    have hlen := next_length hnext
    cases more with
    | false =>
      cases h
      simp only [Bool.false_eq_true, if_false] at hlen
      omega
    | true =>
      obtain ⟨⟨src₁, dst₁⟩, hvalue, h⟩ := LuaResult.bind_eq_ok.mp h
      obtain ⟨⟨src₂, dst₂⟩, hkey, h⟩ := LuaResult.bind_eq_ok.mp h
      obtain ⟨dst₃, -, h⟩ := LuaResult.bind_eq_ok.mp h
      obtain ⟨src₃, hpop, h⟩ := LuaResult.bind_eq_ok.mp h
      have := hcopy hvalue
      have := hcopy hkey
      have := pop_length hpop
      have := ih h
      simp only [if_true] at hlen
      omega

/-- A copy never leaves the source stack higher, and that of a table takes one value off. -/
theorem scriptCopyValue_length {fuel : ℕ} {src dst src' dst' : LuaState} {i : ℤ}
    (h : scriptCopyValue fuel src dst i = .ok (src', dst')) :
    src'.stack.length ≤ src.stack.length ∧
      ∀ a, src.index i = .ok (.table a) → src'.stack.length < src.stack.length := by
  induction fuel generalizing src dst src' dst' i with
  | zero => cases h
  | succ fuel ih =>
    obtain ⟨v, hv, h⟩ := LuaResult.bind_eq_ok.mp h
    cases v with
    | table a =>
      obtain ⟨⟨src₁, dst₁⟩, hentries, h⟩ := LuaResult.bind_eq_ok.mp h
      obtain ⟨src₂, hpop, h⟩ := LuaResult.bind_eq_ok.mp h
      have hloop := scriptCopyEntries_length (fun hcopy => (ih hcopy).1) hentries
      have hlen := pop_length hpop
      cases h
      rw [push_stack, List.length_cons] at hloop
      exact ⟨by omega, fun _ _ => by omega⟩
    | other typename => cases h
    | _ =>
      cases h
      refine ⟨le_rfl, fun a ha => ?_⟩
      rw [hv] at ha
      cases ha

/-! ## Which values are copied -/

/-- A value that is not a table, and holds no `NUL` when it is a string. -/
def Flat (v : LuaValue) : Prop := (∀ a, v ≠ .table a) ∧ ∀ s, v = .string s → 0 ∉ s

theorem Flat.sameValue {tables tables' : List LuaTable} {v : LuaValue} (hflat : Flat v)
    (hv : Transferable tables v) : SameValue tables tables' v v := by
  cases hv with
  | table => exact absurd rfl (hflat.1 _)
  | nil => exact .nil
  | boolean b => exact .boolean b
  | number x => exact .number x
  | string s => exact .string s

/-- Such a value is pushed as it is. -/
theorem Flat.scriptCopyValue {src dst : LuaState} {v : LuaValue} {rest : List LuaValue}
    (hflat : Flat v) {tables : List LuaTable} (hv : Transferable tables v)
    (hstack : src.stack = v :: rest) :
    Wrkx.scriptCopyValue 1 src dst (-1) = .ok (src, dst.push v) := by
  have hindex := index_top hstack
  cases hv with
  | table => exact absurd rfl (hflat.1 _)
  | string s =>
    have hpush : dst.pushString s = dst.push (.string s) := by
      rw [pushString, (cString_eq_self_iff s).mpr (hflat.2 s rfl)]
    rw [Wrkx.scriptCopyValue, hindex, ← hpush]
    rfl
  | _ =>
    rw [Wrkx.scriptCopyValue, hindex]
    rfl

/-- `thread:get` finds what `thread:set` left. -/
theorem Flat.returned {src dst : LuaState} {v : LuaValue} (hflat : Flat v)
    (hv : Transferable src.tables v) (k : List UInt8) (frame frame' : List LuaValue) :
    ∃ fuel L t L' t' w,
      scriptThreadSet fuel { src with stack := v :: .string k :: frame } dst = .ok (L, t) ∧
      scriptThreadGet fuel { L with stack := .string k :: frame' } t = .ok (L', t') ∧
      L'.stack = w :: .string k :: frame' ∧ t'.stack = dst.stack ∧
      SameValue src.tables L'.tables v w := by
  have hset : Wrkx.scriptCopyValue 1 { src with stack := v :: .string k :: frame } dst (-1) =
      .ok ({ src with stack := v :: .string k :: frame }, dst.push v) :=
    hflat.scriptCopyValue hv rfl
  have hname : LuaState.toString { src with stack := v :: .string k :: frame } (-2) = .ok k := rfl
  obtain ⟨t, ht⟩ : ∃ t : LuaState,
      t = { dst with globals := rawSet dst.globals (.string (cString k)) v } := ⟨_, rfl⟩
  have hglobal : (dst.push v).setGlobal k = .ok t := by rw [ht]; rfl
  have hfound : t.getGlobal k = t.push v := by
    rw [ht, getGlobal, rawGet_rawSet]
  have hget : Wrkx.scriptCopyValue 1 (t.push v) { src with stack := .string k :: frame' } (-1) =
      .ok (t.push v, { src with stack := v :: .string k :: frame' }) :=
    hflat.scriptCopyValue hv rfl
  have hkey : LuaState.toString { src with stack := .string k :: frame' } (-1) = .ok k := rfl
  have hpop : (t.push v).pop 1 = .ok t := by simp [pop, push]
  refine ⟨1, { src with stack := v :: .string k :: frame }, t,
    { src with stack := v :: .string k :: frame' }, t, v, ?_, ?_, rfl, by rw [ht],
    hflat.sameValue hv⟩
  · simp only [scriptThreadSet, hname, hset, hglobal, bind, Except.bind]
  · simp only [scriptThreadGet, hkey, hfound, hget, hpop, bind, Except.bind]

/-- The copy of a table takes it off the source stack. -/
theorem not_deepCopied_table {src dst : LuaState} {a : ℕ} {rest : List LuaValue}
    (hstack : src.stack = .table a :: rest) : ¬ DeepCopied src dst (.table a) := by
  rintro ⟨⟨fuel, src', dst', w, hrun, hsame, -⟩, -⟩
  have hlower := (scriptCopyValue_length hrun).2 a (index_top hstack)
  rw [hsame] at hlower
  exact lt_irrefl _ hlower

/-- The copy of a string ends at its first `NUL`. -/
theorem DeepCopied.not_mem_string {src dst : LuaState} {s : List UInt8} {rest : List LuaValue}
    (hstack : src.stack = .string s :: rest) (hcopied : DeepCopied src dst (.string s)) :
    0 ∉ s := by
  obtain ⟨⟨fuel, src', dst', w, hrun, -, hpushed, hsame⟩, -⟩ := hcopied
  cases fuel with
  | zero => cases hrun
  | succ fuel =>
    rw [Wrkx.scriptCopyValue, index_top hstack] at hrun
    cases hrun
    cases hsame
    have hhead : LuaValue.string (cString s) = .string s := (List.cons.inj hpushed).1
    rw [LuaValue.string.injEq] at hhead
    exact (cString_eq_self_iff s).mp hhead

/-- A value is copied deeply if and only if it is not a table and, if it is a string, holds no
    `NUL`. -/
theorem deepCopied_iff {src dst : LuaState} {v : LuaValue} {rest : List LuaValue}
    (hstack : src.stack = v :: rest) (hv : Transferable src.tables v) :
    DeepCopied src dst v ↔ (∀ a, v ≠ .table a) ∧ ∀ s, v = .string s → 0 ∉ s := by
  constructor
  · intro hcopied
    refine ⟨fun a heq => ?_, fun s heq => ?_⟩
    · rw [heq] at hstack hcopied
      exact not_deepCopied_table hstack hcopied
    · rw [heq] at hstack hcopied
      exact hcopied.not_mem_string hstack
  · intro hflat
    exact ⟨⟨1, src, dst.push v, v, Flat.scriptCopyValue hflat hv hstack, rfl, rfl,
      Flat.sameValue hflat hv⟩, Flat.returned hflat hv⟩

/-- The counter of `setup.lua` is copied. -/
theorem deepCopied_iff_number :
    DeepCopied ⟨[.number (.rational 1)], [], ∅⟩ ⟨[], [], ∅⟩ (.number (.rational 1)) :=
  (deepCopied_iff rfl (.number _)).mpr ⟨fun _ h => (nomatch h), fun _ h => (nomatch h)⟩

/-- Of `thread:set ("k", {id = 1})` the thread gets a table without the key `id`, which has the
    key `1` instead, and the caller's table has left its stack. -/
theorem deepCopied_swaps :
    scriptCopyValue 3 ⟨[.table 0, .string [107]],
        [AList.singleton (.string [105, 100]) (.number (.rational 1))], ∅⟩ ⟨[], [], ∅⟩ (-1) =
      .ok (⟨[.string [107]],
          [AList.singleton (.string [105, 100]) (.number (.rational 1))], ∅⟩,
        ⟨[.table 0], [AList.singleton (.number (.rational 1)) (.string [105, 100])], ∅⟩) ∧
    ¬ DeepCopied ⟨[.table 0, .string [107]],
        [AList.singleton (.string [105, 100]) (.number (.rational 1))], ∅⟩ ⟨[], [], ∅⟩
      (.table 0) :=
  ⟨rfl, not_deepCopied_table rfl⟩

end Wrkx
