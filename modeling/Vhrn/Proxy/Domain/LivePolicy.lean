import Vhrn.Proxy.Domain.PolicyReader

/-!
# The law of live policy decisions

What a caller can rely on when the policy files are read for one decision. The layers either grant the
union of their entries or, when one required file fails, nothing. The laws are stated over files and
hosts alone; `PolicyFile.layer` is what a file contributes.
-/

namespace Vhrn.Proxy

/-! ## Changes to a layer file -/

section

variable {α : Type} (parseLine : Bytes → Option α)

/-- Two files that hold the same lines, in any order and any number of times, or are the same. -/
def Rearranged (file file' : PolicyFile) : Prop :=
  file = file' ∨ ∃ text text' lines lines', file.Holds text ∧ file'.Holds text' ∧
    strictLines text = some lines ∧ strictLines text' = some lines' ∧
    ∀ line, line ∈ lines ↔ line ∈ lines'

/-- The second file holds the lines of the first and one more, which is an entry, or is the same. -/
def AddsEntry (file file' : PolicyFile) : Prop :=
  file = file' ∨ ∃ text text' before after line, file.Holds text ∧ file'.Holds text' ∧
    strictLines text = some (before ++ after) ∧
    strictLines text' = some (before ++ line :: after) ∧ (parseLine line).isSome = true

variable {parseLine} {parse : Bytes → Option (List α)}
  (hparse : ∀ contents, parse contents =
    (strictLines contents).bind fun lines => lines.mapM parseLine)

include hparse in
/-- The layer of a file is given by its set of lines. -/
theorem layer_of_lines {file : PolicyFile} {text : Bytes} {lines : List Bytes}
    (hh : file.Holds text) (hl : strictLines text = some lines) :
    file.layer parse =
      if ∀ line ∈ lines, (parseLine line).isSome = true then
        some {e | ∃ line ∈ lines, parseLine line = some e} else none := by
  have hlayer : file.layer parse = (lines.mapM parseLine).map fun es => {e | e ∈ es} := by
    rw [PolicyFile.layer, readBoundedUtf8_eq_ok.mpr hh]
    simp [Except.toOption, hparse, hl]
  rw [hlayer]
  split
  · rename_i hall
    obtain ⟨es, hes⟩ := Option.isSome_iff_exists.mp (mapM_lines_isSome.mpr hall)
    rw [hes, Option.map_some]
    exact congrArg some (Set.ext (mem_of_mapM_lines hes))
  · rename_i hall
    rw [Option.map_eq_none_iff, ← Option.not_isSome_iff_eq_none]
    exact fun h => hall (mapM_lines_isSome.mp h)

include hparse in
theorem layer_rearranged {file file' : PolicyFile} (h : Rearranged file file') :
    file.layer parse = file'.layer parse := by
  rcases h with rfl | ⟨text, text', lines, lines', hh, hh', hl, hl', hmem⟩
  · rfl
  · rw [layer_of_lines hparse hh hl, layer_of_lines hparse hh' hl']
    simp only [hmem]

include hparse in
theorem layer_addsEntry {file file' : PolicyFile} (h : AddsEntry parseLine file file') :
    ∀ s ∈ file.layer parse, ∃ s' ∈ file'.layer parse, s ⊆ s' := by
  rintro s hs
  rcases h with rfl | ⟨text, text', before, after, line, hh, hh', hl, hl', hline⟩
  · exact ⟨s, hs, subset_rfl⟩
  · rw [layer_of_lines hparse hh hl, Option.mem_def, Option.ite_none_right_eq_some] at hs
    obtain ⟨hall, hs⟩ := hs
    obtain rfl := Option.some.inj hs
    have hmem (l : Bytes) : l ∈ before ++ line :: after ↔ l = line ∨ l ∈ before ++ after := by
      simp only [List.mem_append, List.mem_cons]
      tauto
    have hall' : ∀ l ∈ before ++ line :: after, (parseLine l).isSome = true := by
      intro l hl
      rcases (hmem l).mp hl with rfl | hl
      · exact hline
      · exact hall l hl
    refine ⟨_, by rw [layer_of_lines hparse hh' hl', if_pos hall']; rfl, ?_⟩
    rintro e ⟨l, hl, he⟩
    exact ⟨l, (hmem l).mpr (.inr hl), he⟩

end

theorem parseDomainLayer_lines (contents : Bytes) : parseDomainLayer contents =
    (strictLines contents).bind fun lines => lines.mapM PolicyEntry.fromStr := rfl

theorem parseLocalLayer_lines (contents : Bytes) : parseLocalLayer contents =
    (strictLines contents).bind fun lines => lines.mapM parseLocalLine := rfl

/-! ## The decision over the union of the layers -/

/-- What the public layers grant. A list without layers is a failure. -/
def publicGrant (paths : List PolicyFile) : Option (Set PolicyEntry) :=
  if paths = [] then none else Layers.union (paths.map (PolicyFile.layer parseDomainLayer))

/-- The mode a mode file holds. -/
def PolicyFile.mode (file : PolicyFile) : Option Mode :=
  (readBoundedUtf8 file []).toOption.bind parseMode

def localGrant (paths : List.Vector PolicyFile 3) : Option (Set LoopbackAuthority) :=
  Layers.union (paths.toList.map (PolicyFile.layer parseLocalLayer))

/-- An enforced denial that is flagged as invalid. -/
def PublicDecision.invalidDenial : PublicDecision :=
  { allowed := false, recordDenial := true, effectiveMode := .enforce, invalidInput := true }

open PolicyReader in
/-- **A snapshot is loaded exactly when the layers and the mode are usable.** -/
theorem loadPublicStrict_toOption (paths : List PolicyFile) (modePath : PolicyFile) :
    (loadPublicStrict paths modePath).toOption.map
        (fun snapshot => (({e | e ∈ snapshot.entries} : Set PolicyEntry), snapshot.mode)) =
      (publicGrant paths).bind fun s => modePath.mode.map fun mode => (s, mode) := by
  unfold loadPublicStrict publicGrant
  by_cases hp : paths = []
  · subst hp
    rfl
  · rw [if_neg (by simpa using hp), if_neg hp, ← loadLayers_union parsesLayer_domain 0 paths]
    simp only [toOption_bind_ok, PolicyFile.mode]
    rw [readBoundedUtf8_toOption modePath (ascii "policy mode") []]
    cases (loadLayers (ascii "public policy layer") parseDomainLayerAt 0 paths).toOption with
    | none => rfl
    | some entries =>
      cases (readBoundedUtf8 modePath []).toOption with
      | none => rfl
      | some contents =>
        simp only [Option.bind_some, Option.map_some]
        cases parseMode contents <;> rfl

open PolicyReader in
theorem loadLocalStrict_toOption (paths : List.Vector PolicyFile 3) :
    (loadLocalStrict paths).toOption.map
        (fun snapshot => ({e | e ∈ snapshot.authorities} : Set LoopbackAuthority)) =
      localGrant paths := by
  unfold loadLocalStrict localGrant
  rw [← loadLayers_union parsesLayer_local 0 paths.toList]
  simp only [toOption_bind_ok]
  cases (loadLayers (ascii "local policy layer") parseLocalLayerAt 0 paths.toList).toOption <;> rfl

/-- Some entry of some layer lets the host through. -/
def LayersMatch (paths : List PolicyFile) (host : PublicHost) : Prop :=
  ∃ file ∈ paths, ∃ s, file.layer parseDomainLayer = some s ∧ ∃ entry ∈ s, entry.Matches host

/-- Every layer is usable, and there is one. -/
def Usable (paths : List PolicyFile) : Prop :=
  paths ≠ [] ∧ ∀ file ∈ paths, (file.layer parseDomainLayer).isSome = true

theorem publicGrant_eq_none_iff {paths : List PolicyFile} :
    publicGrant paths = none ↔
      paths = [] ∨ ∃ file ∈ paths, file.layer parseDomainLayer = none := by
  unfold publicGrant
  split
  · rename_i h
    simp [h]
  · rename_i h
    rw [Layers.union_eq_none_iff, List.mem_map]
    simp [h]

theorem Usable.publicGrant {paths : List PolicyFile} (h : Usable paths) :
    ∃ s, publicGrant paths = some s := by
  rw [← Option.ne_none_iff_exists']
  rintro hn
  rcases publicGrant_eq_none_iff.mp hn with hp | ⟨file, hf, hfile⟩
  · exact h.1 hp
  · have hsome := h.2 file hf
    rw [hfile] at hsome
    cases hsome

theorem matches_publicGrant {paths : List PolicyFile} {s : Set PolicyEntry}
    (h : publicGrant paths = some s) (host : PublicHost) :
    (∃ entry ∈ s, entry.Matches host) ↔ LayersMatch paths host := by
  have hu : Layers.union (paths.map (PolicyFile.layer parseDomainLayer)) = some s :=
    (Option.ite_none_left_eq_some.mp h).2
  unfold LayersMatch
  constructor
  · rintro ⟨entry, he, hm⟩
    obtain ⟨t, ht, het⟩ := (Layers.mem_union hu entry).mp he
    obtain ⟨file, hf, hfile⟩ := List.mem_map.mp ht
    exact ⟨file, hf, t, hfile, entry, het, hm⟩
  · rintro ⟨file, hf, t, hfile, entry, het, hm⟩
    exact ⟨entry, (Layers.mem_union hu entry).mpr ⟨t, List.mem_map.mpr ⟨file, hf, hfile⟩, het⟩, hm⟩

section

open PolicyReader

variable {paths paths' : List PolicyFile} {modePath : PolicyFile} (host : PublicHost)

theorem decidePublicLive_unusable (h : publicGrant paths = none ∨ modePath.mode = none) :
    decidePublicLive paths modePath host = .invalidDenial := by
  have hload : (loadPublicStrict paths modePath).toOption = none := by
    rw [← Option.map_eq_none_iff, loadPublicStrict_toOption]
    rcases h with h | h
    · rw [h]
      rfl
    · rw [h]
      cases publicGrant paths <;> rfl
  have hempty : PublicPolicySnapshot.empty.matched host = false := by
    rw [← Bool.not_eq_true, PublicPolicySnapshot.matched_iff]
    rintro ⟨entry, he, -⟩
    exact absurd he List.not_mem_nil
  unfold decidePublicLive
  cases hl : loadPublicStrict paths modePath with
  | ok snapshot => rw [hl] at hload; cases hload
  | error e =>
    simp only [PublicPolicySnapshot.decide, hempty]
    rfl

theorem decidePublicLive_usable {s : Set PolicyEntry} {mode : Mode}
    (hs : publicGrant paths = some s) (hm : modePath.mode = some mode) :
    ∃ snapshot : PublicPolicySnapshot, snapshot.mode = mode ∧
      (snapshot.matched host = true ↔ ∃ entry ∈ s, entry.Matches host) ∧
      decidePublicLive paths modePath host = snapshot.decide host false := by
  have hload := loadPublicStrict_toOption paths modePath
  rw [hs, hm] at hload
  unfold decidePublicLive
  cases hl : loadPublicStrict paths modePath with
  | error e => rw [hl] at hload; cases hload
  | ok snapshot =>
    rw [hl] at hload
    obtain ⟨rfl, rfl⟩ := Prod.mk.inj (Option.some.inj hload)
    exact ⟨snapshot, rfl, snapshot.matched_iff host, rfl⟩

/-- Only the grant of the layers matters. -/
theorem decidePublicLive_congr (h : publicGrant paths = publicGrant paths') :
    decidePublicLive paths modePath host = decidePublicLive paths' modePath host := by
  cases hs : publicGrant paths with
  | none =>
    rw [decidePublicLive_unusable host (.inl hs), decidePublicLive_unusable host (.inl (h ▸ hs))]
  | some s =>
    cases hm : modePath.mode with
    | none => rw [decidePublicLive_unusable host (.inr hm), decidePublicLive_unusable host (.inr hm)]
    | some mode =>
      obtain ⟨snap, hmode, hmatch, heq⟩ := decidePublicLive_usable host hs hm
      obtain ⟨snap', hmode', hmatch', heq'⟩ := decidePublicLive_usable host (h ▸ hs) hm
      have hsame : snap.matched host = snap'.matched host :=
        Bool.eq_iff_iff.mpr (hmatch.trans hmatch'.symm)
      rw [heq, heq', PublicPolicySnapshot.decide, PublicPolicySnapshot.decide, hmode, hmode', hsame]

/-- A larger grant allows at least as much. -/
theorem decidePublicLive_mono {s s' : Set PolicyEntry} (hs : publicGrant paths = some s)
    (hs' : publicGrant paths' = some s') (hsub : s ⊆ s')
    (h : (decidePublicLive paths modePath host).allowed = true) :
    (decidePublicLive paths' modePath host).allowed = true := by
  cases hm : modePath.mode with
  | none => rw [decidePublicLive_unusable host (.inr hm)] at h; cases h
  | some mode =>
    obtain ⟨snap, hmode, hmatch, heq⟩ := decidePublicLive_usable host hs hm
    obtain ⟨snap', hmode', hmatch', heq'⟩ := decidePublicLive_usable host hs' hm
    rw [heq, PublicPolicySnapshot.decide, hmode] at h
    rw [heq', PublicPolicySnapshot.decide, hmode']
    cases mode with
    | enforce =>
      obtain ⟨entry, he, hmatches⟩ := hmatch.mp h
      exact hmatch'.mpr ⟨entry, hsub he, hmatches⟩
    | report => rfl
    | «open» => rfl

end

section

open PolicyReader

variable {paths paths' : List.Vector PolicyFile 3} (authority : LoopbackAuthority)

variable (paths) in
/-- The local decision is membership in the grant, and a denial flagged as invalid without one. -/
theorem decideLocalLive_eq :
    (∃ s, localGrant paths = some s ∧
      ((decideLocalLive paths authority).allowed = true ↔ authority ∈ s) ∧
      (decideLocalLive paths authority).invalidInput = false) ∨
    (localGrant paths = none ∧
      decideLocalLive paths authority = { allowed := false, invalidInput := true }) := by
  rw [← loadLocalStrict_toOption]
  unfold decideLocalLive
  cases loadLocalStrict paths with
  | ok snapshot =>
    refine .inl ⟨_, rfl, ?_, rfl⟩
    simp [LocalPolicySnapshot.decide]
  | error e => exact .inr ⟨rfl, rfl⟩

theorem decideLocalLive_congr (h : localGrant paths = localGrant paths') :
    decideLocalLive paths authority = decideLocalLive paths' authority := by
  rcases decideLocalLive_eq paths authority with ⟨s, hs, hallow, hinv⟩ | ⟨hs, heq⟩
  · rcases decideLocalLive_eq paths' authority with ⟨s', hs', hallow', hinv'⟩ | ⟨hs', -⟩
    · obtain rfl : s = s' := Option.some.inj (hs.symm.trans (h.trans hs'))
      have hsame := Bool.eq_iff_iff.mpr (hallow.trans hallow'.symm)
      generalize decideLocalLive paths authority = d at *
      generalize decideLocalLive paths' authority = d' at *
      cases d
      cases d'
      simp_all
    · rw [h, hs'] at hs
      cases hs
  · rcases decideLocalLive_eq paths' authority with ⟨s', hs', -⟩ | ⟨-, heq'⟩
    · rw [h, hs'] at hs
      cases hs
    · rw [heq, heq']

end

/-! ## The laws -/

/-- What a caller can rely on from a public decision. -/
structure PublicLaw (decide : List PolicyFile → PolicyFile → PublicHost → PublicDecision) :
    Prop where
  /-- Without layers, or when a required file fails, the decision is an enforced denial. -/
  failsClosed : ∀ {paths modePath} host,
    paths = [] ∨ (∃ file ∈ paths, file.layer parseDomainLayer = none) ∨ modePath.mode = none →
      decide paths modePath host = .invalidDenial
  enforceMode : ∀ {paths modePath} host, Usable paths → modePath.mode = some .enforce →
    ((decide paths modePath host).allowed = true ↔ LayersMatch paths host) ∧
      (decide paths modePath host).recordDenial = !(decide paths modePath host).allowed ∧
      (decide paths modePath host).effectiveMode = .enforce ∧
      (decide paths modePath host).invalidInput = false
  reportMode : ∀ {paths modePath} host, Usable paths → modePath.mode = some .report →
    (decide paths modePath host).allowed = true ∧
      ((decide paths modePath host).recordDenial = true ↔ ¬ LayersMatch paths host) ∧
      (decide paths modePath host).effectiveMode = .report ∧
      (decide paths modePath host).invalidInput = false
  openMode : ∀ {paths modePath} host, Usable paths → modePath.mode = some .open →
    decide paths modePath host =
      { allowed := true, recordDenial := false, effectiveMode := .open, invalidInput := false }
  order : ∀ {paths paths'} modePath host, paths.Perm paths' →
    decide paths modePath host = decide paths' modePath host
  lines : ∀ {paths paths'} modePath host, List.Forall₂ Rearranged paths paths' →
    decide paths modePath host = decide paths' modePath host
  adding : ∀ {paths paths'} modePath host,
    List.Forall₂ (AddsEntry PolicyEntry.fromStr) paths paths' →
      (decide paths modePath host).allowed = true → (decide paths' modePath host).allowed = true

/-- What a caller can rely on from a local decision. -/
structure LocalLaw (decide : List.Vector PolicyFile 3 → LoopbackAuthority → LocalDecision) :
    Prop where
  failsClosed : ∀ {paths} authority, (∃ file ∈ paths.toList, file.layer parseLocalLayer = none) →
    decide paths authority = { allowed := false, invalidInput := true }
  granted : ∀ {paths} authority,
    (∀ file ∈ paths.toList, (file.layer parseLocalLayer).isSome = true) →
      ((decide paths authority).allowed = true ↔
        ∃ file ∈ paths.toList, ∃ s, file.layer parseLocalLayer = some s ∧ authority ∈ s) ∧
      (decide paths authority).invalidInput = false
  order : ∀ {paths paths'} authority, paths.toList.Perm paths'.toList →
    decide paths authority = decide paths' authority
  lines : ∀ {paths paths'} authority, List.Forall₂ Rearranged paths.toList paths'.toList →
    decide paths authority = decide paths' authority
  adding : ∀ {paths paths'} authority,
    List.Forall₂ (AddsEntry parseLocalLine) paths.toList paths'.toList →
      (decide paths authority).allowed = true → (decide paths' authority).allowed = true

theorem map_layer_rearranged {α : Type} {parse : Bytes → Option (List α)}
    {parseLine : Bytes → Option α} (hparse : ∀ contents, parse contents =
      (strictLines contents).bind fun lines => lines.mapM parseLine) {files files' : List PolicyFile}
    (h : List.Forall₂ Rearranged files files') :
    files.map (PolicyFile.layer parse) = files'.map (PolicyFile.layer parse) := by
  induction h with
  | nil => rfl
  | cons hf _ ih => rw [List.map_cons, List.map_cons, ih, layer_rearranged hparse hf]

theorem map_layer_addsEntry {α : Type} {parse : Bytes → Option (List α)}
    {parseLine : Bytes → Option α} (hparse : ∀ contents, parse contents =
      (strictLines contents).bind fun lines => lines.mapM parseLine) {files files' : List PolicyFile}
    (h : List.Forall₂ (AddsEntry parseLine) files files') :
    List.Forall₂ (fun l l' => ∀ s ∈ l, ∃ s' ∈ l', s ⊆ s')
      (files.map (PolicyFile.layer parse)) (files'.map (PolicyFile.layer parse)) := by
  induction h with
  | nil => exact .nil
  | cons hf _ ih => exact .cons (layer_addsEntry hparse hf) ih

theorem forall₂_eq_nil_iff {α β : Type} {r : α → β → Prop} {l : List α} {l' : List β}
    (h : List.Forall₂ r l l') : l = [] ↔ l' = [] := by
  cases h <;> simp

theorem decidePublicLive_law : PublicLaw PolicyReader.decidePublicLive where
  failsClosed host h := decidePublicLive_unusable host (by rwa [publicGrant_eq_none_iff, or_assoc])
  enforceMode {paths _} host hu hm := by
    obtain ⟨s, hs⟩ := hu.publicGrant
    obtain ⟨snap, hmode, hmatch, heq⟩ := decidePublicLive_usable host hs hm
    rw [heq, PublicPolicySnapshot.decide, hmode]
    exact ⟨hmatch.trans (matches_publicGrant hs host), rfl, rfl, rfl⟩
  reportMode {paths _} host hu hm := by
    obtain ⟨s, hs⟩ := hu.publicGrant
    obtain ⟨snap, hmode, hmatch, heq⟩ := decidePublicLive_usable host hs hm
    rw [heq, PublicPolicySnapshot.decide, hmode]
    refine ⟨rfl, ?_, rfl, rfl⟩
    rw [Bool.not_eq_true', ← Bool.not_eq_true, hmatch, matches_publicGrant hs host]
  openMode {paths _} host hu hm := by
    obtain ⟨s, hs⟩ := hu.publicGrant
    obtain ⟨snap, hmode, -, heq⟩ := decidePublicLive_usable host hs hm
    rw [heq, PublicPolicySnapshot.decide, hmode]
  order {paths paths'} modePath host h := by
    refine decidePublicLive_congr host ?_
    have hnil : paths = [] ↔ paths' = [] := by rw [← List.length_eq_zero_iff, h.length_eq,
      List.length_eq_zero_iff]
    rw [publicGrant, publicGrant, Layers.union_perm (h.map _)]
    simp only [hnil]
  lines {paths paths'} modePath host h := by
    refine decidePublicLive_congr host ?_
    rw [publicGrant, publicGrant, map_layer_rearranged parseDomainLayer_lines h]
    simp only [forall₂_eq_nil_iff h]
  adding {paths paths'} modePath host h hallow := by
    cases hs : publicGrant paths with
    | none => rw [decidePublicLive_unusable host (.inl hs)] at hallow; cases hallow
    | some s =>
      have hs₀ := hs
      rw [publicGrant, Option.ite_none_left_eq_some] at hs₀
      obtain ⟨s', hs', hsub⟩ := Layers.union_mono (map_layer_addsEntry parseDomainLayer_lines h) hs₀.2
      have hgrant : publicGrant paths' = some s' :=
        Option.ite_none_left_eq_some.mpr ⟨fun hn => hs₀.1 ((forall₂_eq_nil_iff h).mpr hn), hs'⟩
      exact decidePublicLive_mono host hs hgrant hsub hallow

theorem decideLocalLive_law : LocalLaw PolicyReader.decideLocalLive where
  failsClosed {paths} authority h := by
    obtain ⟨file, hf, hfile⟩ := h
    have hnone : localGrant paths = none :=
      Layers.union_eq_none_iff.mpr (List.mem_map.mpr ⟨file, hf, hfile⟩)
    rcases decideLocalLive_eq paths authority with ⟨s, hs, -⟩ | ⟨-, heq⟩
    · rw [hnone] at hs
      cases hs
    · exact heq
  granted {paths} authority h := by
    rcases decideLocalLive_eq paths authority with ⟨s, hs, hallow, hinv⟩ | ⟨hnone, -⟩
    · refine ⟨hallow.trans ((Layers.mem_union hs authority).trans ?_), hinv⟩
      constructor
      · rintro ⟨t, ht, hmem⟩
        obtain ⟨file, hf, hfile⟩ := List.mem_map.mp ht
        exact ⟨file, hf, t, hfile, hmem⟩
      · rintro ⟨file, hf, t, hfile, hmem⟩
        exact ⟨t, List.mem_map.mpr ⟨file, hf, hfile⟩, hmem⟩
    · obtain ⟨file, hf, hfile⟩ := List.mem_map.mp (Layers.union_eq_none_iff.mp hnone)
      have hsome := h file hf
      rw [hfile] at hsome
      cases hsome
  order authority h := decideLocalLive_congr authority (Layers.union_perm (h.map _))
  lines authority h := decideLocalLive_congr authority
    (congrArg Layers.union (map_layer_rearranged parseLocalLayer_lines h))
  adding {paths paths'} authority h hallow := by
    rcases decideLocalLive_eq paths authority with ⟨s, hs, hiff, -⟩ | ⟨-, heq⟩
    · obtain ⟨s', hs', hsub⟩ := Layers.union_mono (map_layer_addsEntry parseLocalLayer_lines h) hs
      rcases decideLocalLive_eq paths' authority with ⟨t, ht, hiff', -⟩ | ⟨hnone, -⟩
      · obtain rfl : s' = t := Option.some.inj (hs'.symm.trans ht)
        exact hiff'.mpr (hsub (hiff.mp hallow))
      · rw [localGrant, hs'] at hnone
        cases hnone
    · rw [heq] at hallow
      cases hallow

/-- **Live policy decisions fail closed and are additive.** -/
theorem live_decisions_fail_closed :
    PublicLaw PolicyReader.decidePublicLive ∧ LocalLaw PolicyReader.decideLocalLive :=
  ⟨decidePublicLive_law, decideLocalLive_law⟩

end Vhrn.Proxy
