import Wrkx.Units.Affinity

/-!
# The command line

`parse_args` of `wrk.c`, after `getopt_long` has cut the command line into options, and the
loop of `main` that hands the CPU sets out to the threads. The parser of the URL is a
parameter.

## Main results

- `parseArgs_affinity` — the CPU list of an accepted command line is that of its last `-a`
- `handOut_eq` — the sets are handed out in order
- `affinity_iff` — which CPU lists are honoured
-/

namespace Wrkx

open CString

/-- An option of the command line with its argument. `other` stands for `-h`, an unknown option
    or a missing argument. -/
inductive CommandOption
  | t (optarg : Bytes)
  | a (optarg : Bytes)
  | c (optarg : Bytes)
  | d (optarg : Bytes)
  | s (optarg : Bytes)
  | H (optarg : Bytes)
  | L
  | B
  | U
  | T (optarg : Bytes)
  | R (optarg : Bytes)
  | v
  | other

/-- What `parse_args` stores: the fields of `struct config` it sets, and the headers. -/
structure ParsedArgs where
  threads : ℕ
  affinity : Option (List CpuSet)
  connections : ℕ
  duration : ℕ
  timeout : ℕ
  rate : ℕ
  latency : Bool
  uLatency : Bool
  recordAllResponses : Bool
  script : Option Bytes
  headers : List Bytes

/-- The defaults; `timeout` is `SOCKET_TIMEOUT_MS`. -/
def ParsedArgs.start : ParsedArgs where
  threads := 2
  affinity := none
  connections := 10
  duration := 10
  timeout := 2000
  rate := 0
  latency := false
  uLatency := false
  recordAllResponses := true
  script := none
  headers := []

/-- What `scan` stores in a field of the configuration, unless it fails. -/
def stored {α : Type} (result : ℤ × α) (store : α → ParsedArgs) : Option ParsedArgs :=
  if result.1 ≠ 0 then none else some (store result.2)

/-- A round of the option loop; `none` when `parse_args` returns -1. -/
def takeOption (cfg : ParsedArgs) : CommandOption → Option ParsedArgs
  | .t optarg => stored (scanMetric optarg cfg.threads) fun n => { cfg with threads := n }
  | .a optarg => stored (scanAffinity optarg cfg.affinity) fun l => { cfg with affinity := l }
  | .c optarg => stored (scanMetric optarg cfg.connections) fun n => { cfg with connections := n }
  | .d optarg => stored (scanTime optarg cfg.duration) fun n => { cfg with duration := n }
  | .s optarg => some { cfg with script := some optarg }
  | .H optarg => some { cfg with headers := cfg.headers ++ [optarg] }
  | .L => some { cfg with latency := true }
  | .B => some { cfg with recordAllResponses := false }
  | .U => some { cfg with latency := true, uLatency := true }
  | .T optarg =>
    stored (scanTime optarg cfg.timeout) fun n => { cfg with timeout := n * 1000 % 2 ^ 64 }
  | .R optarg => stored (scanMetric optarg cfg.rate) fun n => { cfg with rate := n }
  | .v => some cfg
  | .other => none

/-- `parse_args` of a command line with these options and, if there is one, this URL. -/
def parseArgs (scriptParseUrl : Bytes → Bool) (options : List CommandOption)
    (url : Option Bytes) : Option ParsedArgs := do
  let cfg ← options.foldlM takeOption ParsedArgs.start
  let url ← url
  if cfg.threads = 0 ∨ cfg.duration = 0 then none
  else if scriptParseUrl url = false then none
  else if cfg.connections = 0 ∨ cfg.connections < cfg.threads then none
  else if cfg.rate = 0 then none
  else if ∃ sets ∈ cfg.affinity, cfg.threads ≠ sets.length then none
  else some cfg

/-- The loop of `main` over the threads: the `cpu_set` of each, or `none` when the assertion
    fails. -/
def handOut (asHead : Option (List CpuSet)) : ℕ → List CpuSet → Option (List (Option CpuSet))
  | 0, _ => some []
  | threads + 1, items =>
    match asHead, items with
    | none, items => (handOut asHead threads items).map (none :: ·)
    | some _, [] => none
    | some _, item :: rest => (handOut asHead threads rest).map (some item :: ·)

/-- The CPU sets of the threads, in order. -/
def cpuSets (cfg : ParsedArgs) : Option (List (Option CpuSet)) :=
  handOut cfg.affinity cfg.threads (cfg.affinity.getD [])

/-! ## The list of the command line -/

theorem stored_affinity {result : ℤ × ℕ} {store : ℕ → ParsedArgs} {cfg : ParsedArgs}
    {affinity : Option (List CpuSet)} (h : stored result store = some cfg)
    (hkeep : ∀ n, (store n).affinity = affinity) : cfg.affinity = affinity := by
  rw [stored] at h
  split at h
  · exact absurd h (by simp)
  · exact Option.some.inj h ▸ hkeep _

/-- No option but `-a` touches the CPU list. -/
theorem takeOption_affinity {cfg cfg' : ParsedArgs} {o : CommandOption}
    (h : takeOption cfg o = some cfg') (ho : ∀ s, o ≠ .a s) : cfg'.affinity = cfg.affinity := by
  cases o with
  | a s => exact absurd rfl (ho s)
  | t | c | d | T | R =>
    simp only [takeOption] at h
    exact stored_affinity h fun _ => rfl
  | s | H | L | B | U | v => exact Option.some.inj h ▸ rfl
  | other => exact absurd h (by simp [takeOption])

theorem foldlM_affinity {options : List CommandOption} {cfg cfg' : ParsedArgs}
    (h : options.foldlM takeOption cfg = some cfg') (ho : ∀ o ∈ options, ∀ s, o ≠ .a s) :
    cfg'.affinity = cfg.affinity := by
  induction options generalizing cfg with
  | nil => exact Option.some.inj h ▸ rfl
  | cons o options ih =>
    rw [List.foldlM_cons] at h
    obtain ⟨next, hnext, hrest⟩ := Option.bind_eq_some_iff.mp h
    rw [ih hrest fun o' ho' => ho o' (by simp [ho']), takeOption_affinity hnext (ho o (by simp))]

/-- The CPU list of an accepted command line is that of its last `-a`, and it has one set a
    thread unless it is missing. -/
theorem parseArgs_affinity {scriptParseUrl : Bytes → Bool} {before after : List CommandOption}
    {s : Bytes} {url : Option Bytes} {cfg : ParsedArgs}
    (h : parseArgs scriptParseUrl (before ++ .a s :: after) url = some cfg)
    (hlast : ∀ o ∈ after, ∀ s, o ≠ .a s) :
    (∃ asHead, scanAffinity s asHead = (0, cfg.affinity)) ∧
      ∀ sets, cfg.affinity = some sets → cfg.threads = sets.length := by
  obtain ⟨done, hdone, h⟩ := Option.bind_eq_some_iff.mp h
  obtain ⟨url, -, h⟩ := Option.bind_eq_some_iff.mp h
  rw [List.foldlM_append] at hdone
  obtain ⟨first, -, hdone⟩ := Option.bind_eq_some_iff.mp hdone
  rw [List.foldlM_cons] at hdone
  obtain ⟨scanned, hscanned, hdone⟩ := Option.bind_eq_some_iff.mp hdone
  have hkept := foldlM_affinity hdone hlast
  split_ifs at h with hthreads hurl hconnections hrate hsets
  obtain rfl := Option.some.inj h
  constructor
  · refine ⟨first.affinity, ?_⟩
    simp only [takeOption, stored] at hscanned
    split_ifs at hscanned with hcode
    obtain rfl := Option.some.inj hscanned
    rw [hkept]
    exact Prod.ext (not_not.mp hcode) rfl
  · intro sets heq
    by_contra hne
    exact hsets ⟨sets, heq, hne⟩

/-! ## Handing out the sets -/

theorem handOut_eq (asHead : List CpuSet) (items : List CpuSet) :
    handOut (some asHead) items.length items = some (items.map some) := by
  induction items with
  | nil => rfl
  | cons item items ih => simp [handOut, ih]

theorem handOut_none (threads : ℕ) (items : List CpuSet) : (handOut none threads items).isSome := by
  induction threads with
  | zero => rfl
  | succ threads ih => simpa [handOut] using ih

/-! ## Which lists are honoured -/

/-- The CPU list is honoured: it has one CPU a thread, and thread `i` gets the set of the
    `i`-th CPU alone. -/
def HonoursAffinity (cfg : ParsedArgs) (s : Bytes) : Prop :=
  ∃ cpus, Lists s cpus ∧ cfg.affinity = some (cpus.map fun cpu => {cpu}) ∧
    cpus.length = cfg.threads ∧ cpuSets cfg = some (cpus.map fun cpu => some {cpu})

theorem honoursAffinity_iff {scriptParseUrl : Bytes → Bool} {before after : List CommandOption}
    {s : Bytes} {url : Option Bytes} {cfg : ParsedArgs}
    (h : parseArgs scriptParseUrl (before ++ .a s :: after) url = some cfg)
    (hlast : ∀ o ∈ after, ∀ s, o ≠ .a s) :
    HonoursAffinity cfg s ↔ ∃ cpus, Lists s cpus := by
  refine ⟨fun ⟨cpus, hlist, _⟩ => ⟨cpus, hlist⟩, fun ⟨cpus, hlist⟩ => ?_⟩
  obtain ⟨⟨asHead, hscan⟩, hthreads⟩ := parseArgs_affinity h hlast
  rw [hlist.scanAffinity asHead, Prod.mk.injEq] at hscan
  have haffinity := hscan.2.symm
  have hlength : cfg.threads = cpus.length := by simpa using hthreads _ haffinity
  refine ⟨cpus, hlist, haffinity, hlength.symm, ?_⟩
  have hout := handOut_eq (cpus.map fun cpu => {cpu}) (cpus.map fun cpu => {cpu})
  rw [List.length_map, List.map_map] at hout
  rw [cpuSets, haffinity, hlength, Option.getD_some]
  exact hout

/-- The assertion of `main` holds on every accepted command line with a CPU list. -/
theorem cpuSets_isSome {scriptParseUrl : Bytes → Bool} {before after : List CommandOption}
    {s : Bytes} {url : Option Bytes} {cfg : ParsedArgs}
    (h : parseArgs scriptParseUrl (before ++ .a s :: after) url = some cfg)
    (hlast : ∀ o ∈ after, ∀ s, o ≠ .a s) : (cpuSets cfg).isSome := by
  obtain ⟨-, hthreads⟩ := parseArgs_affinity h hlast
  rw [cpuSets]
  cases haffinity : cfg.affinity with
  | none => exact handOut_none cfg.threads _
  | some sets => simp [hthreads sets haffinity, handOut_eq]

/-- `scan_affinity` scans a string exactly if and only if it is a list of CPUs, or a token of it
    does not fit a `long`. On an accepted command line the assertion of `main` holds, and the
    CPU list is honoured if and only if it is a list of CPUs. -/
theorem affinity_iff (s : Bytes) :
    (∀ asHead, ScansExactly s asHead ↔ (∃ cpus, Lists s cpus) ∨ Overflows s) ∧
    ∀ scriptParseUrl before after url cfg,
      parseArgs scriptParseUrl (before ++ .a s :: after) url = some cfg →
      (∀ o ∈ after, ∀ s, o ≠ .a s) →
      (cpuSets cfg).isSome ∧ (HonoursAffinity cfg s ↔ ∃ cpus, Lists s cpus) := by
  refine ⟨scansExactly_iff s, ?_⟩
  intro scriptParseUrl before after url cfg h hlast
  exact ⟨cpuSets_isSome h hlast, honoursAffinity_iff h hlast⟩

theorem lists_two : Lists (ascii ['1', ',', '0', 'x', 'f']) [1, 15] := by
  refine ⟨[ascii ['1'], ascii ['0', 'x', 'f']], by simp, by decide, ?_⟩
  have hone : Numeral (ascii ['1']) 1 :=
    ⟨10, ascii ['1'], by decide, by decide, by decide +kernel, by decide⟩
  have hfifteen : Numeral (ascii ['0', 'x', 'f']) 15 :=
    ⟨16, ascii ['f'], by decide, by decide, by decide +kernel, by decide⟩
  exact .cons ⟨hone, by decide⟩ (.cons ⟨hfifteen, by decide⟩ .nil)

/-- `wrk -a 1,0xf -R 5 url`, with two threads. -/
theorem affinity_iff_two : ∃ cfg, parseArgs (fun _ => true)
    [.a (ascii ['1', ',', '0', 'x', 'f']), .R (ascii ['5'])] (some (ascii ['u'])) = some cfg ∧
    HonoursAffinity cfg (ascii ['1', ',', '0', 'x', 'f']) := by
  have hsome : (parseArgs (fun _ => true)
      [.a (ascii ['1', ',', '0', 'x', 'f']), .R (ascii ['5'])] (some (ascii ['u']))).isSome := by
    decide +kernel
  obtain ⟨cfg, hcfg⟩ := Option.isSome_iff_exists.mp hsome
  have hlast : ∀ o ∈ [CommandOption.R (ascii ['5'])], ∀ s, o ≠ .a s := by simp
  obtain ⟨-, haccepted⟩ := affinity_iff (ascii ['1', ',', '0', 'x', 'f'])
  obtain ⟨-, hhonours⟩ := haccepted (fun _ => true) [] _ _ cfg hcfg hlast
  exact ⟨cfg, hcfg, hhonours.mpr ⟨_, lists_two⟩⟩

/-- A list of commas is accepted with no set at all, and `1x` is read as `1`. -/
theorem affinity_commas : scanAffinity [44, 44] none = (0, none) ∧ ¬ ScansExactly [44, 44] none ∧
    scanAffinity (ascii ['1', 'x']) none = (0, some [{1}]) ∧
    ¬ ScansExactly (ascii ['1', 'x']) none := by
  refine ⟨by decide +kernel, ?_, by decide +kernel, ?_⟩
  · have htokens : tokens [44, 44] = [] := by decide
    rw [scansExactly_iff]
    rintro (⟨cpus, h⟩ | ⟨token, hmem, -⟩)
    · exact h.tokens_eq.1 htokens
    · rw [htokens] at hmem
      exact absurd hmem (by simp)
  · have htokens : tokens (ascii ['1', 'x']) = [ascii ['1', 'x']] := by decide +kernel
    have hread : (strtol (ascii ['1', 'x'])).2 = false := by decide +kernel
    rw [scansExactly_iff]
    rintro (⟨cpus, h⟩ | ⟨token, hmem, hover⟩)
    · have hall := h.tokens_eq.2
      rw [htokens] at hall
      obtain ⟨cpu, rest, ⟨⟨base, body, hbase, -, hbody, -⟩, -⟩, -, -⟩ :=
        List.forall₂_cons_left_iff.mp hall
      obtain ⟨rfl, rfl⟩ := Prod.mk.inj (hbase.symm.trans (by decide :
        numberBase (ascii ['1', 'x']) = (10, ascii ['1', 'x'])))
      exact absurd (hbody 120 (by decide)) (by decide)
    · rw [htokens, List.mem_singleton] at hmem
      rw [hmem, hread] at hover
      exact absurd hover (by simp)

end Wrkx
