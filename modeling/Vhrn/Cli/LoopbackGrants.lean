import Vhrn.Cli.Batches

/-!
# Loopback grants of the host broker

The broker on the host decides on every connection from the same three files as the proxy: the global
one, that of the project and that of the run. It reads them leniently, the proxy strictly and within a
size limit, so what the proxy grants the broker grants too (`grants_of_decideLocal`). On files that the
command line has written the two decide alike as long as the files are within the limit of the proxy;
beyond it the proxy grants nothing (`oversized_grants_differ`).
-/

namespace Vhrn.Cli

open Proxy (PolicyFile decideLocal strictLines unlines)

/-! ## The decision of the broker -/

/-- The authorities of a file. Only its contents matter, not what kind of file it is. -/
def readLoopbackFile (file : PolicyFile) : Except StoreError (List LoopbackAuthority) :=
  match file.read with
  | .opened _ _ (some contents) => (readLoopbackAuthorities contents).mapError .input
  | _ => .error (.io .other)

/-- Whether one of the three files grants an authority. -/
def loopbackAllowsLive (global project run : PolicyFile) (authority : LoopbackAuthority) :
    Except StoreError Bool := do
  let global ← readLoopbackFile global
  let project ← readLoopbackFile project
  let run ← readLoopbackFile run
  return global.contains authority || project.contains authority || run.contains authority

theorem loopbackAllowsLive_eq_ok {global project run : PolicyFile} {authority : LoopbackAuthority}
    {a b c : List LoopbackAuthority} (ha : readLoopbackFile global = .ok a)
    (hb : readLoopbackFile project = .ok b) (hc : readLoopbackFile run = .ok c) :
    loopbackAllowsLive global project run authority =
      .ok (decide (authority ∈ a ∨ authority ∈ b ∨ authority ∈ c)) := by
  unfold loopbackAllowsLive
  rw [ha, hb, hc]
  refine congrArg Except.ok ?_
  simp only [Bool.decide_or, List.contains_eq_mem, Bool.or_assoc]

/-! ## Lines of strict files -/

/-- Lines that a strict reader accepts are the lines of the text. -/
theorem lines_of_strictLines {contents : Bytes} {ls : List Bytes}
    (h : strictLines contents = some ls) (hne : ∀ l ∈ ls, l ≠ [] ∧ (13 : UInt8) ∉ l) :
    lines contents = ls := by
  have hcr : ∀ l ∈ ls, (stripSuffix [13] l).getD l = l := by
    intro l hl
    cases hs : stripSuffix [13] l with
    | none => rfl
    | some r => exact absurd (by rw [stripSuffix_eq_some.mp hs]; simp) (hne l hl).2
  unfold strictLines at h
  split at h
  · rename_i hempty
    obtain rfl := Option.some.inj h
    rw [List.isEmpty_iff.mp hempty]
    rfl
  · rename_i hempty
    have hls := (Option.ite_none_left_eq_some.mp h).2
    unfold lines
    cases hsuffix : stripSuffix [10] contents with
    | some body =>
      -- the text ends with a line feed, after which there is no line
      rw [hsuffix, Option.getD_some] at hls
      have hparts : contents.splitOn 10 = ls ++ [[]] := by
        rw [stripSuffix_eq_some.mp hsuffix, List.splitOn_append_cons_self, Option.some.inj hls]
        rfl
      rw [hparts]
      simp only [List.dropLast_concat, List.getLast?_concat]
      rw [List.map_congr_left hcr]
      simp
    | none =>
      rw [hsuffix, Option.getD_none] at hls
      obtain rfl := Option.some.inj hls
      have hnil : contents.splitOn 10 ≠ [] := List.splitOn_ne_nil 10 contents
      have hlast := (hne _ (List.getLast_mem hnil)).1
      have hdrop : (contents.splitOn 10).dropLast.map (fun l => (stripSuffix [13] l).getD l) =
          (contents.splitOn 10).dropLast :=
        (List.map_congr_left fun l hl => hcr l (List.mem_of_mem_dropLast hl)).trans (List.map_id' _)
      simp only [hdrop, List.getLast?_eq_some_getLast hnil, Option.filter_some, hlast, ne_eq,
        not_false_eq_true, decide_true, ↓reduceIte, Option.toList_some,
        List.dropLast_append_getLast]

/-! ## What the proxy takes from a file -/

/-- A line of a strict file is the canonical text of its authority. -/
theorem parseLocalLine_text {line : Bytes} {authority : Proxy.LoopbackAuthority}
    (h : Proxy.parseLocalLine line = some authority) :
    ∃ a : LoopbackAuthority, a.display = line ∧ a.toProxy = authority := by
  obtain rfl := Proxy.parseLocalLine_eq_some.mp h
  have hparse := LoopbackAuthority.parse_eq authority.display
  rw [Proxy.LoopbackAuthority.fromStr_display] at hparse
  obtain ⟨a, -, ha⟩ := Option.map_eq_some_iff.mp hparse
  refine ⟨a, ?_, ha⟩
  rw [← a.display_toProxy, ha]

theorem mapM_parseLocalLine_text {ls : List Bytes} {entries : List Proxy.LoopbackAuthority}
    (h : ls.mapM Proxy.parseLocalLine = some entries) : ∃ as : List LoopbackAuthority,
      ls = as.map LoopbackAuthority.display ∧ entries = as.map LoopbackAuthority.toProxy := by
  induction ls generalizing entries with
  | nil =>
    obtain rfl := Option.some.inj h
    exact ⟨[], rfl, rfl⟩
  | cons l ls ih =>
    rw [List.mapM_cons] at h
    obtain ⟨entry, hentry, h⟩ := Option.bind_eq_some_iff.mp h
    obtain ⟨rest, hrest, h⟩ := Option.bind_eq_some_iff.mp h
    obtain rfl := Option.some.inj h
    obtain ⟨a, rfl, rfl⟩ := parseLocalLine_text hentry
    obtain ⟨as, rfl, rfl⟩ := ih hrest
    exact ⟨a :: as, rfl, rfl⟩

/-- **What the proxy takes from a file the broker takes from it too.** -/
theorem readLoopbackFile_of_layer {file : PolicyFile} {s : Set Proxy.LoopbackAuthority}
    (h : file.layer Proxy.parseLocalLayer = some s) :
    ∃ authorities, readLoopbackFile file = .ok authorities ∧
      s = LoopbackAuthority.toProxy '' {a | a ∈ authorities} := by
  obtain ⟨text, entries, ⟨hlen, hread, hutf8⟩, hparse, rfl⟩ :=
    Proxy.PolicyFile.layer_eq_some.mp h
  obtain ⟨ls, hls, hentries⟩ := Option.bind_eq_some_iff.mp hparse
  obtain ⟨as, rfl, rfl⟩ := mapM_parseLocalLine_text hentries
  have hlines : lines text = as.map LoopbackAuthority.display := by
    refine lines_of_strictLines hls fun l hl => ?_
    obtain ⟨a, -, rfl⟩ := List.mem_map.mp hl
    exact ⟨sharedLoopback.ne_nil a, (sharedLoopback.not_mem a).2⟩
  have hauthorities : readLoopbackAuthorities text = .ok (as.foldl pushNew []) := by
    unfold readLoopbackAuthorities readLines
    rw [fromUtf8, if_pos hutf8]
    show normalizeAll parseAuthority (lines text) = _
    rw [hlines, sharedLoopback.normalizeAll]
  refine ⟨as.foldl pushNew [], ?_, ?_⟩
  · show (readLoopbackAuthorities text).mapError StoreError.input = _
    rw [hauthorities]
    rfl
  · ext entry
    simp [mem_foldl_pushNew]

/-- **The proxy grants nothing that the broker does not grant.** -/
theorem grants_of_decideLocal {global project run : PolicyFile} {authority : LoopbackAuthority}
    (h : decideLocal ⟨[global, project, run], rfl⟩ authority.toProxy = true) :
    loopbackAllowsLive global project run authority = .ok true := by
  unfold decideLocal at h
  rcases Proxy.decideLocalLive_eq ⟨[global, project, run], rfl⟩ authority.toProxy with
    ⟨s, hs, hallowed, -⟩ | ⟨-, hdenied⟩
  · have hmem := hallowed.mp h
    obtain ⟨t, ht, hentry⟩ := (Layers.mem_union hs _).mp hmem
    have hlayer : ∀ file ∈ [global, project, run], ∃ t, file.layer Proxy.parseLocalLayer = some t := by
      intro file hfile
      refine Option.ne_none_iff_exists'.mp fun hnone => ?_
      have hunusable : Proxy.localGrant ⟨[global, project, run], rfl⟩ = none :=
        Layers.union_eq_none_iff.mpr (List.mem_map.mpr ⟨file, hfile, hnone⟩)
      rw [hunusable] at hs
      cases hs
    have hread : ∀ file ∈ [global, project, run], ∃ authorities,
        readLoopbackFile file = .ok authorities ∧
          file.layer Proxy.parseLocalLayer = some (LoopbackAuthority.toProxy '' {a | a ∈ authorities}) := by
      intro file hfile
      obtain ⟨t, ht⟩ := hlayer file hfile
      obtain ⟨authorities, hok, rfl⟩ := readLoopbackFile_of_layer ht
      exact ⟨authorities, hok, ht⟩
    obtain ⟨a, ha, hla⟩ := hread global (by simp)
    obtain ⟨b, hb, hlb⟩ := hread project (by simp)
    obtain ⟨c, hc, hlc⟩ := hread run (by simp)
    rw [loopbackAllowsLive_eq_ok ha hb hc]
    refine congrArg Except.ok (decide_eq_true ?_)
    have hfiles : t = LoopbackAuthority.toProxy '' {x | x ∈ a} ∨
        t = LoopbackAuthority.toProxy '' {x | x ∈ b} ∨
        t = LoopbackAuthority.toProxy '' {x | x ∈ c} := by
      simpa [hla, hlb, hlc] using ht
    have himage (l : List LoopbackAuthority) :
        authority.toProxy ∈ LoopbackAuthority.toProxy '' {x | x ∈ l} → authority ∈ l := by
      rintro ⟨x, hx, heq⟩
      rwa [← LoopbackAuthority.toProxy_injective heq]
    rcases hfiles with rfl | rfl | rfl
    · exact .inl (himage a hentry)
    · exact .inr (.inl (himage b hentry))
    · exact .inr (.inr (himage c hentry))
  · rw [hdenied] at h
    cases h

/-! ## Files that the command line has written -/

/-- The three files of a run: the global one, that of a project and that of the run. -/
structure Store.HasLoopbackFiles (store : Store) (global project run : Bytes) : Prop where
  global : store.globalLoopback = some global
  project : ∃ dir ∈ store.projects, dir.loopback = project
  run : ∃ dir ∈ store.runs, dir.loopback = run

/-- A regular file as both sides find it. -/
def regularFile (path contents : Bytes) : PolicyFile :=
  ⟨path, .opened true contents.length (some contents)⟩

/-- What both sides take from a written file within the limit. -/
theorem LoopbackFile.read {contents : Bytes} (h : LoopbackFile contents) (path : Bytes)
    (hlimit : contents.length ≤ Proxy.maxPolicyBytes) :
    ∃ authorities, readLoopbackFile (regularFile path contents) = .ok authorities ∧
      (regularFile path contents).layer Proxy.parseLocalLayer =
        some (LoopbackAuthority.toProxy '' {a | a ∈ authorities}) := by
  obtain ⟨authorities, hread, -, hlayer⟩ := h.same
  have hutf8 : isUtf8 contents = true := by
    obtain ⟨as, rfl⟩ := h
    exact sharedLoopback.isUtf8 as
  refine ⟨authorities, ?_, hlayer _ ⟨hlimit, hlimit, hutf8⟩⟩
  show (readLoopbackAuthorities contents).mapError StoreError.input = _
  rw [hread]
  rfl

/-- **On written files within the limit the two decisions are equal.** -/
theorem decisions_agree {a b c pa pb pc : Bytes} (ha : LoopbackFile a) (hb : LoopbackFile b)
    (hc : LoopbackFile c) (hla : a.length ≤ Proxy.maxPolicyBytes)
    (hlb : b.length ≤ Proxy.maxPolicyBytes) (hlc : c.length ≤ Proxy.maxPolicyBytes)
    (authority : LoopbackAuthority) :
    loopbackAllowsLive (regularFile pa a) (regularFile pb b) (regularFile pc c) authority =
      .ok (decideLocal ⟨[regularFile pa a, regularFile pb b, regularFile pc c], rfl⟩
        authority.toProxy) := by
  obtain ⟨as, hreada, hlayera⟩ := ha.read pa hla
  obtain ⟨bs, hreadb, hlayerb⟩ := hb.read pb hlb
  obtain ⟨cs, hreadc, hlayerc⟩ := hc.read pc hlc
  have hgrant : Proxy.localGrant ⟨[regularFile pa a, regularFile pb b, regularFile pc c], rfl⟩ =
      some {e | ∃ s ∈ [as, bs, cs].map fun l => LoopbackAuthority.toProxy '' {x | x ∈ l}, e ∈ s} := by
    rw [← Layers.union_map_some]
    show Layers.union (List.map _ [regularFile pa a, regularFile pb b, regularFile pc c]) = _
    simp only [List.map_cons, List.map_nil, hlayera, hlayerb, hlayerc]
  rw [loopbackAllowsLive_eq_ok hreada hreadb hreadc]
  refine congrArg Except.ok ?_
  unfold decideLocal
  have himage (l : List LoopbackAuthority) :
      authority.toProxy ∈ LoopbackAuthority.toProxy '' {x | x ∈ l} ↔ authority ∈ l := by
    constructor
    · rintro ⟨x, hx, heq⟩
      rwa [← LoopbackAuthority.toProxy_injective heq]
    · exact fun h => ⟨authority, h, rfl⟩
  rcases Proxy.decideLocalLive_eq
      ⟨[regularFile pa a, regularFile pb b, regularFile pc c], rfl⟩ authority.toProxy with
    ⟨s, hs, hallowed, -⟩ | ⟨hnone, -⟩
  · rw [hgrant] at hs
    obtain rfl := Option.some.inj hs
    rw [Bool.eq_iff_iff, decide_eq_true_eq, hallowed]
    simp only [Set.mem_ofPred_eq, List.map_cons, List.map_nil, List.mem_cons, List.not_mem_nil,
      or_false, exists_eq_or_imp, exists_eq_left, himage]
  · rw [hgrant] at hnone
    cases hnone

/-! ## Agreement -/

/-- How the authorities of the two sides correspond. -/
structure SameAuthorities : Prop where
  parse : ∀ input, (LoopbackAuthority.parse input).map LoopbackAuthority.toProxy =
    (Proxy.LoopbackAuthority.fromStr input).toOption
  display : ∀ authority : LoopbackAuthority, authority.toProxy.display = authority.display
  parse_display : ∀ authority : LoopbackAuthority,
    LoopbackAuthority.parse authority.display = some authority
  fromStr_display : ∀ authority : Proxy.LoopbackAuthority,
    Proxy.LoopbackAuthority.fromStr authority.display = .ok authority
  bijective : Function.Bijective LoopbackAuthority.toProxy

theorem sameAuthorities : SameAuthorities where
  parse := LoopbackAuthority.parse_eq
  display := LoopbackAuthority.display_toProxy
  parse_display := LoopbackAuthority.parse_display
  fromStr_display := Proxy.LoopbackAuthority.fromStr_display
  bijective := by
    refine ⟨LoopbackAuthority.toProxy_injective, fun authority => ?_⟩
    obtain ⟨a, -, ha⟩ := parseLocalLine_text (Proxy.parseLocalLine_eq_some.mpr rfl)
    exact ⟨a, ha⟩

/-- **The local grant of the proxy stays within that of the broker**, whatever the files hold, and on
files of a store within the limit of the proxy the two are the same. -/
theorem local_grant_within_broker [Host] :
    (∀ (global project run : PolicyFile) (authority : LoopbackAuthority),
      decideLocal ⟨[global, project, run], rfl⟩ authority.toProxy = true →
        loopbackAllowsLive global project run authority = .ok true) ∧
    (∀ (ops : List Op) (a b c pa pb pc : Bytes) (authority : LoopbackAuthority),
      (storeAfter ops).HasLoopbackFiles a b c →
      (∀ contents ∈ [a, b, c], contents.length ≤ Proxy.maxPolicyBytes) →
      loopbackAllowsLive (regularFile pa a) (regularFile pb b) (regularFile pc c) authority =
        .ok (decideLocal ⟨[regularFile pa a, regularFile pb b, regularFile pc c], rfl⟩
          authority.toProxy)) ∧
    SameAuthorities := by
  refine ⟨fun _ _ _ _ => grants_of_decideLocal, fun ops a b c pa pb pc authority hfiles hlimit => ?_,
    sameAuthorities⟩
  have hw := written_storeAfter ops
  obtain ⟨project, hproject, rfl⟩ := hfiles.project
  obtain ⟨run, hrun, rfl⟩ := hfiles.run
  exact decisions_agree (hw.globalLoopback a hfiles.global) (hw.projects project hproject).loopback
    (hw.runs run hrun).loopback (hlimit _ (by simp)) (hlimit _ (by simp)) (hlimit _ (by simp)) authority

/-! ## Files beyond the limit -/

/-- A global file of any authorities, each of them once. -/
theorem mutateLoopbackGlobal_exec [Host] (hreplace : ∀ path contents, Host.replaceError path contents = none)
    {store : Store} (hempty : store.globalLoopback = some []) {authorities : List LoopbackAuthority}
    (hnodup : authorities.Nodup) {a : Bytes} {b : Bytes}
    (hproject : ∃ dir ∈ store.projects, dir.loopback = a) (hrun : ∃ dir ∈ store.runs, dir.loopback = b) :
    ((Op.mutateLoopbackGlobal (authorities.map LoopbackAuthority.display) []).run
      store).HasLoopbackFiles (loopbackText authorities) a b := by
  have hnormal : normalizeLoopbackBatch (authorities.map LoopbackAuthority.display) [] =
      .ok (authorities, []) := by
    unfold normalizeLoopbackBatch normalizeLoopbackAuthorities
    rw [sharedLoopback.normalizeAll, foldl_pushNew_of_nodup hnodup]
    rfl
  have hmutate : mutateLoopbackFile [] authorities [] = .ok (loopbackText authorities) := by
    unfold mutateLoopbackFile mutateEntries
    show Except.ok (loopbackText (List.filter (· ∉ []) (authorities.foldl pushNew []))) = _
    rw [foldl_pushNew_of_nodup hnodup]
    simp
  have hexec : (mutateLoopbackGlobal (authorities.map LoopbackAuthority.display) []).exec store =
      (.ok (), { store with
        global := some (store.global.getD [])
        globalLoopback := some (loopbackText authorities)
        log := some (store.log.getD []) }) := by
    let ensured : Store :=
      { store with
        global := some (store.global.getD [])
        globalLoopback := some (store.globalLoopback.getD [])
        log := some (store.log.getD []) }
    have hensure : ensure.exec store = (.ok (), ensured) := rfl
    have hcontents : ensured.globalLoopback = some [] := by
      show some (store.globalLoopback.getD []) = some []
      rw [hempty]
      rfl
    have hbatch : (ofInput (normalizeLoopbackBatch (authorities.map LoopbackAuthority.display) [])).exec
        store = (.ok (authorities, []), store) := by
      rw [hnormal]
      rfl
    have hfile (s : Store) : (ofInput (mutateLoopbackFile [] authorities [])).exec s =
        (.ok (loopbackText authorities), s) := by
      rw [hmutate]
      rfl
    have hget (s : Store) : (get : StoreM Store).exec s = (.ok s, s) := rfl
    have hpresent (s : Store) : (present (some [])).exec s = (.ok [], s) := rfl
    unfold mutateLoopbackGlobal locked writeGlobalLoopback writeAtomic
    simp only [exec_bind, hbatch, hensure, hget, hcontents, hpresent, hfile, hreplace]
    rfl
  show ((mutateLoopbackGlobal _ []).exec store).2.HasLoopbackFiles _ _ _
  rw [hexec]
  exact ⟨rfl, hproject, hrun⟩

theorem writeDomains_baseAllowlist [Host] : ∃ base, writeDomains baseAllowlist = .ok base := by
  have hnames : ∃ names : List PolicyName, names.map PolicyName.text = baseAllowlist :=
    ⟨[⟨ascii "github.com", by decide +kernel, by decide +kernel⟩,
      ⟨ascii "githubusercontent.com", by decide +kernel, by decide +kernel⟩,
      ⟨ascii "registry.npmjs.org", by decide +kernel, by decide +kernel⟩,
      ⟨ascii "pypi.org", by decide +kernel, by decide +kernel⟩,
      ⟨ascii "files.pythonhosted.org", by decide +kernel, by decide +kernel⟩,
      ⟨ascii "astral.sh", by decide +kernel, by decide +kernel⟩], rfl⟩
  obtain ⟨names, hnames⟩ := hnames
  refine ⟨domainsText (names.foldl pushNew []), ?_⟩
  rw [writeDomains, ← hnames, normalizeDomains, sharedDomains.normalizeAll]
  rfl

/-- A run of a project without entries of their own. -/
theorem publishRun_exec [Host] (id harness project : Bytes) (mode : Proxy.Mode) :
    ((Op.publishRun id harness project [] [] [] mode).run Store.empty).HasLoopbackFiles [] [] [] := by
  obtain ⟨base, hbase⟩ := writeDomains_baseAllowlist
  have hwrite (s : Store) : (ofInput (writeDomains baseAllowlist)).exec s = (.ok base, s) := by
    rw [hbase]
    rfl
  have hdomains (s : Store) : (ofInput (normalizeDomains [])).exec s = (.ok [], s) := rfl
  have hauthorities (s : Store) :
      (ofInput (normalizeLoopbackAuthorities [])).exec s = (.ok [], s) := rfl
  have hempty (s : Store) :
      (ofInput (writeDomains (([] : List PolicyName).map PolicyName.text))).exec s = (.ok [], s) := rfl
  show ((publishRun id harness project [] [] [] mode).exec Store.empty).2.HasLoopbackFiles _ _ _
  unfold publishRun locked
  simp only [exec_bind, hdomains, hauthorities, hempty, hwrite]
  exact ⟨rfl, ⟨_, List.mem_cons_self, rfl⟩, ⟨_, List.mem_cons_self, rfl⟩⟩

theorem length_le_loopbackText (authorities : List LoopbackAuthority) :
    authorities.length ≤ (loopbackText authorities).length := by
  unfold loopbackText unlines
  induction authorities with
  | nil => exact Nat.zero_le _
  | cons a as ih =>
    rw [List.map_cons, List.map_cons, List.flatten_cons, List.length_append, List.length_append,
      List.length_cons, List.length_singleton]
    omega

theorem webPort_ne_zero : (80 : UInt16) ≠ 0 := by decide

/-- One of the 2^24 numeric addresses of the loopback network. -/
def numbered (i : ℕ) : LoopbackAuthority :=
  ⟨.ipv4 ⟨127, .ofNat (i / 65536), .ofNat (i / 256), .ofNat i⟩ rfl, ⟨80, webPort_ne_zero⟩⟩

theorem numbered_injOn {i j : ℕ} (hi : i < 2 ^ 24) (hj : j < 2 ^ 24) (h : numbered i = numbered j) :
    i = j := by
  have hoctets := LoopbackHost.ipv4.inj (LoopbackAuthority.mk.inj h).1
  obtain ⟨-, hb, hc, hd⟩ := Octets.mk.inj hoctets
  have hnat {m n : ℕ} (h : UInt8.ofNat m = UInt8.ofNat n) : m % 256 = n % 256 := by
    simpa using congrArg UInt8.toNat h
  have hb := hnat hb
  have hc := hnat hc
  have hd := hnat hd
  omega

theorem nodup_numbered {n : ℕ} (h : n ≤ 2 ^ 24) : ((List.range n).map numbered).Nodup := by
  refine List.Nodup.map_on (fun i hi j hj => numbered_injOn ?_ ?_) List.nodup_range
  · exact (List.mem_range.mp hi).trans_le h
  · exact (List.mem_range.mp hj).trans_le h

/-- Of a written file beyond the limit of the proxy the broker grants what it holds, the proxy nothing. -/
theorem oversized_grant {authorities : List LoopbackAuthority} (hnodup : authorities.Nodup)
    (hlong : Proxy.maxPolicyBytes < (loopbackText authorities).length) {a : LoopbackAuthority}
    (ha : a ∈ authorities) (path : Bytes) :
    loopbackAllowsLive (regularFile path (loopbackText authorities)) (regularFile path [])
        (regularFile path []) a = .ok true ∧
      decideLocal ⟨[regularFile path (loopbackText authorities), regularFile path [],
        regularFile path []], rfl⟩ a.toProxy = false := by
  constructor
  · have hread : readLoopbackFile (regularFile path (loopbackText authorities)) = .ok authorities := by
      show (readLoopbackAuthorities (loopbackText authorities)).mapError StoreError.input = _
      have hwritten : readLoopbackAuthorities (loopbackText authorities) = .ok authorities :=
        (sharedLoopback.nodup_read fun _ => rfl).2 hnodup
      rw [hwritten]
      rfl
    have hempty : readLoopbackFile (regularFile path []) = .ok [] := rfl
    rw [loopbackAllowsLive_eq_ok hread hempty hempty]
    exact congrArg Except.ok (decide_eq_true (.inl ha))
  · have hlayer : (regularFile path (loopbackText authorities)).layer Proxy.parseLocalLayer = none := by
      refine Option.eq_none_iff_forall_ne_some.mpr fun s hs => ?_
      obtain ⟨text, -, hholds, -, -⟩ := Proxy.PolicyFile.layer_eq_some.mp hs
      obtain ⟨hlen, -, -⟩ := hholds
      exact absurd hlen (Nat.not_le.mpr hlong)
    have hdecision : Proxy.PolicyReader.decideLocalLive ⟨[regularFile path (loopbackText authorities),
        regularFile path [], regularFile path []], rfl⟩ a.toProxy =
          { allowed := false, invalidInput := true } :=
      Proxy.decideLocalLive_law.failsClosed a.toProxy ⟨_, List.mem_cons_self, hlayer⟩
    exact congrArg Proxy.LocalDecision.allowed hdecision

/-- The command line can write a file that the proxy does not read. -/
theorem oversized_grants_differ : ¬ ∀ [Host] (ops : List Op) (a b c pa pb pc : Bytes)
    (authority : LoopbackAuthority), (storeAfter ops).HasLoopbackFiles a b c →
      loopbackAllowsLive (regularFile pa a) (regularFile pb b) (regularFile pc c) authority =
        .ok (decideLocal ⟨[regularFile pa a, regularFile pb b, regularFile pc c], rfl⟩
          authority.toProxy) := by
  intro h
  let host : Host :=
    { domainToAscii := fun _ => none
      keyForBytes := id
      harnesses := []
      replaceError := fun _ _ => none }
  obtain ⟨many, hmany⟩ : ∃ many, many = (List.range (Proxy.maxPolicyBytes + 1)).map numbered :=
    ⟨_, rfl⟩
  have hnodup : many.Nodup := by
    rw [hmany]
    exact nodup_numbered (by unfold Proxy.maxPolicyBytes; omega)
  have hlong : Proxy.maxPolicyBytes < (loopbackText many).length := by
    refine Nat.lt_of_lt_of_le ?_ (length_le_loopbackText many)
    rw [hmany, List.length_map, List.length_range]
    exact Nat.lt_succ_self _
  have hmem : numbered 0 ∈ many := by
    rw [hmany]
    exact List.mem_map_of_mem (List.mem_range.mpr (Nat.succ_pos _))
  have hpublished := publishRun_exec (ascii "1-1") (ascii "agent") (ascii "/p") .enforce
  have hfiles : (storeAfter [.publishRun (ascii "1-1") (ascii "agent") (ascii "/p") [] [] [] .enforce,
      .mutateLoopbackGlobal (many.map LoopbackAuthority.display) []]).HasLoopbackFiles
        (loopbackText many) [] [] :=
    mutateLoopbackGlobal_exec (fun _ _ => rfl) hpublished.global hnodup hpublished.project
      hpublished.run
  have hequal := h _ _ _ _ [] [] [] (numbered 0) hfiles
  obtain ⟨hgranted, hdenied⟩ := oversized_grant hnodup hlong hmem []
  rw [hgranted, hdenied] at hequal
  cases hequal

end Vhrn.Cli
