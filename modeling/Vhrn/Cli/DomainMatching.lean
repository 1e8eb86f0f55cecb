import Vhrn.Cli.Names

/-!
# What a domain entry matches

A domain entry is normalised twice, by the command line that stores it and by the proxy that reads it,
and the host of a request is normalised by a third function. `domain_matching` says what the three make
of any two texts: an entry matches a host exactly when its labels end the host's labels, and the texts
that are read as one entry are exactly its spellings (`EntrySpelling`).
-/

namespace Vhrn.Cli

open Proxy (labels validLabel validDomain validPolicyDomain DomainName DomainPattern PolicyDomain
  PolicyEntry)

/-! ## Normalised texts -/

/-- The labels of an entry, once its text is normalised. -/
def entryLabels (p : Bytes) : List Bytes := labels (lower (bareDomain p))

/-- The labels of a host, without the root dot and in lower case. -/
def hostLabels (h : Bytes) : List Bytes := labels (lower ((stripSuffix [46] h).getD h))

/-- The texts of one entry: its name in any letter case, between any dots, after an optional wildcard
label and within white space. -/
def EntrySpelling (name p : Bytes) : Prop :=
  ∃ wild before word after : Bytes, trim p = wild ++ (before ++ word ++ after) ∧
    (wild = [] ∨ wild = [42, 46]) ∧ (∀ b ∈ before, b = 46) ∧ (∀ b ∈ after, b = 46) ∧
    lower word = name

/-- A text is accepted as a domain entry by the proxy, or by the command line when the proxy reads the
stored name as a domain and not as an address. -/
inductive AcceptedEntry [Host] (p : Bytes) : DomainPattern → Prop
  | proxy {pattern : DomainPattern} (h : DomainPattern.fromStr p = some pattern) :
    AcceptedEntry p pattern
  | commandLine {name : PolicyName} {pattern : DomainPattern} (h : normalizeDomain p = .ok name)
    (hread : PolicyEntry.fromStr name.text = some (.domain pattern)) : AcceptedEntry p pattern

theorem fromStr_pattern_iff {p : Bytes} {pattern : DomainPattern} :
    DomainPattern.fromStr p = some pattern ↔ lower (bareDomain p) = pattern.domain.text := by
  have hunfold : DomainPattern.fromStr p =
      (PolicyDomain.fromStr (lower (bareDomain p))).map .mk := rfl
  rw [hunfold, PolicyDomain.fromStr]
  constructor
  · intro h
    split at h
    · obtain rfl := Option.some.inj h
      rfl
    · exact absurd h (by simp)
  · intro h
    have hvalid : validPolicyDomain (lower (bareDomain p)) = true := h ▸ pattern.domain.valid
    rw [dif_pos hvalid, Option.map_some]
    rcases pattern with ⟨domain⟩
    exact congrArg (fun domain => some (DomainPattern.mk domain)) (Proxy.PolicyDomain.ext h)

theorem normalizeDomain_iff [Host] {p : Bytes} {name : PolicyName} :
    normalizeDomain p = .ok name ↔ lower (bareDomain p) = name.text := by
  unfold normalizeDomain normalizeDomainEntry normalizePolicyDomain
  constructor
  · intro h
    cases hascii : isAscii (bareDomain p) with
    | false => simp [hascii] at h
    | true =>
      by_cases hstored : storedDomain (lower (bareDomain p)) = true
      · simp only [hascii, hstored, Bool.not_true, Bool.false_eq_true, ↓reduceIte, ↓reduceDIte,
          Except.ok.injEq] at h
        rw [← h]
      · simp [hascii, hstored] at h
  · intro h
    have hascii : isAscii (bareDomain p) = true := by
      have hstored := name.stored
      simp only [storedDomain, Bool.and_eq_true] at hstored
      rw [← Proxy.isAscii_lower, h]
      exact hstored.1.1.1.1
    have hstored : storedDomain (lower (bareDomain p)) = true := h ▸ name.stored
    simp only [hascii, hstored, Bool.not_true, Bool.false_eq_true, ↓reduceIte, ↓reduceDIte,
      Except.ok.injEq]
    exact PolicyName.ext h

theorem AcceptedEntry.text_eq [Host] {p : Bytes} {pattern : DomainPattern}
    (h : AcceptedEntry p pattern) : lower (bareDomain p) = pattern.domain.text := by
  cases h with
  | proxy h => exact fromStr_pattern_iff.mp h
  | commandLine h hread =>
    rw [normalizeDomain_iff.mp h]
    exact (PolicyEntry.text_fromStr hread).symm

theorem fromStr_host_text {h : Bytes} {host : DomainName} (hread : DomainName.fromStr h = some host) :
    host.text = lower ((stripSuffix [46] h).getD h) := by
  unfold DomainName.fromStr at hread
  split at hread
  · exact absurd hread (by simp)
  · simp only at hread
    split at hread
    · rw [← Option.some.inj hread]
    · exact absurd hread (by simp)

/-! ## The spellings of an entry -/

section

variable {name : Bytes} (hvalid : validPolicyDomain name = true)

include hvalid

/-- A word that spells a valid name stands between no dots and begins with no wildcard label. -/
theorem bareDomain_of_spelling {p : Bytes} (hp : EntrySpelling name p) :
    lower (bareDomain p) = name := by
  obtain ⟨wild, before, word, after, htrim, hwild, hbefore, hafter, hword⟩ := hp
  have hdot (b : UInt8) : Ascii.toLower b = 46 ↔ b = 46 := Ascii.toLower_eq_iff (by decide)
  have hself : trimBy (· == 46) word = word := by
    refine trimBy_eq_self (fun b hb => ?_) fun b hb => ?_
    · rw [beq_eq_false_iff_ne]
      rintro rfl
      refine Proxy.validPolicyDomain_head hvalid ?_
      rw [← hword, lower, List.head?_map, hb]
      rfl
    · rw [beq_eq_false_iff_ne]
      rintro rfl
      refine Proxy.validPolicyDomain_getLast hvalid ?_
      rw [← hword, lower, List.getLast?_map, hb]
      rfl
  have hdots : trimBy (· == 46) (before ++ word ++ after) = word :=
    trimBy_append (fun b hb => by simp [hbefore b hb]) (fun b hb => by simp [hafter b hb]) hself
  have hstrip : (stripPrefix [42, 46] (trim p)).getD (trim p) = before ++ word ++ after := by
    rcases hwild with rfl | rfl
    · rw [List.nil_append] at htrim
      rw [htrim]
      cases hs : stripPrefix [42, 46] (before ++ word ++ after) with
      | none => rfl
      | some rest =>
        -- The text would start with an asterisk, which neither a dot nor a valid name is.
        have hstar : (before ++ word ++ after).head? = some 42 := by
          rw [stripPrefix_eq_some.mp hs]
          rfl
        rcases before with _ | ⟨b, before⟩
        · rcases word with _ | ⟨b, word⟩
          · exact absurd hword.symm (Proxy.validPolicyDomain_ne_nil hvalid)
          · obtain rfl : b = 42 := Option.some.inj hstar
            refine absurd (Proxy.validPolicyDomain_byte hvalid (b := 42) ?_) (by decide)
            rw [← hword]
            exact List.mem_map.mpr ⟨42, List.mem_cons_self, rfl⟩
        · obtain rfl : b = 42 := Option.some.inj hstar
          exact absurd (hbefore 42 List.mem_cons_self) (by decide)
    · rw [htrim, stripPrefix_append]
      rfl
  rw [bareDomain, hstrip, hdots, hword]

end

theorem spelling_of_bareDomain (p : Bytes) : EntrySpelling (lower (bareDomain p)) p := by
  obtain ⟨before, after, hsplit, hbefore, hafter⟩ :=
    trimBy_parts (· == 46) ((stripPrefix [42, 46] (trim p)).getD (trim p))
  have hdot (b : UInt8) (h : (b == 46) = true) : b = 46 := by simpa using h
  cases hs : stripPrefix [42, 46] (trim p) with
  | none =>
    rw [hs, Option.getD_none] at hsplit
    refine ⟨[], before, bareDomain p, after, ?_, .inl rfl, fun b hb => hdot b (hbefore b hb),
      fun b hb => hdot b (hafter b hb), rfl⟩
    rw [List.nil_append, bareDomain, hs, Option.getD_none]
    exact hsplit
  | some rest =>
    rw [hs, Option.getD_some] at hsplit
    refine ⟨[42, 46], before, bareDomain p, after, ?_, .inr rfl, fun b hb => hdot b (hbefore b hb),
      fun b hb => hdot b (hafter b hb), rfl⟩
    rw [bareDomain, hs, Option.getD_some, ← hsplit]
    exact stripPrefix_eq_some.mp hs

/-- **The texts read as a pattern are the spellings of its name.** -/
theorem fromStr_iff_spelling {p : Bytes} {pattern : DomainPattern} :
    DomainPattern.fromStr p = some pattern ↔ EntrySpelling pattern.domain.text p := by
  rw [fromStr_pattern_iff]
  exact ⟨fun h => h ▸ spelling_of_bareDomain p, bareDomain_of_spelling pattern.domain.valid⟩

/-- **The texts stored as a name are its spellings.** -/
theorem normalizeDomain_iff_spelling [Host] {p : Bytes} {name : PolicyName} :
    normalizeDomain p = .ok name ↔ EntrySpelling name.text p := by
  rw [normalizeDomain_iff]
  exact ⟨fun h => h ▸ spelling_of_bareDomain p, bareDomain_of_spelling name.valid⟩

/-- Every spelling of an accepted entry is accepted, as the same pattern. -/
theorem AcceptedEntry.of_spelling [Host] {p p' : Bytes} {pattern : DomainPattern}
    (h : AcceptedEntry p pattern) (hspelling : EntrySpelling pattern.domain.text p') :
    AcceptedEntry p' pattern := by
  cases h with
  | proxy => exact .proxy (fromStr_iff_spelling.mpr hspelling)
  | commandLine _ hread =>
    refine .commandLine (normalizeDomain_iff_spelling.mpr ?_) hread
    rw [← PolicyEntry.text_fromStr hread]
    exact hspelling

/-! ## The relation -/

/-- The name of a pattern that matches a host is itself the name of a host. -/
theorem fromStr_of_matches {pattern : DomainPattern} {host : DomainName}
    (h : pattern.matches host = true) :
    ∃ host' : DomainName, host'.text = pattern.domain.text ∧
      DomainName.fromStr pattern.domain.text = some host' := by
  have hpolicy := pattern.domain.valid
  have hsuffix := (DomainPattern.matches_iff pattern host).mp h
  have hvalid : validDomain pattern.domain.text = true := by
    have hhost := host.valid
    have hascii : isAscii pattern.domain.text = true := by
      simp only [validPolicyDomain, Bool.and_eq_true] at hpolicy
      exact hpolicy.1.1.1.1
    simp only [validDomain, Bool.and_eq_true, decide_eq_true_eq] at hhost ⊢
    refine ⟨⟨hascii, ?_⟩, ?_⟩
    · refine le_trans ?_ hhost.1.2
      rcases splitOn_suffix_iff.mp hsuffix with heq | ⟨rest, heq⟩
      · rw [heq]
      · rw [heq]
        simp only [List.length_append, List.length_cons]
        omega
    · rw [List.all_eq_true] at hhost ⊢
      exact fun label hlabel => hhost.2 label (hsuffix.subset hlabel)
  have hdot : stripSuffix [46] pattern.domain.text = none := by
    cases hs : stripSuffix [46] pattern.domain.text with
    | none => rfl
    | some rest =>
      refine absurd ?_ (Proxy.validPolicyDomain_getLast hpolicy)
      rw [stripSuffix_eq_some.mp hs]
      simp
  have hempty : pattern.domain.text.isEmpty = false := by
    rw [List.isEmpty_eq_false_iff]
    exact Proxy.validPolicyDomain_ne_nil hpolicy
  refine ⟨⟨pattern.domain.text, hvalid, Proxy.lower_policyDomain hpolicy⟩, rfl, ?_⟩
  unfold DomainName.fromStr
  simp only [hempty, Proxy.trim_policyDomain hpolicy, hdot, Option.getD_none, hvalid,
    Proxy.lower_policyDomain hpolicy, bne_self_eq_false, Bool.or_self, Bool.false_eq_true,
    ↓reduceIte, ↓reduceDIte]

/-- Sharing trailing characters is not enough, a dot must stand before them. -/
theorem matches_trailing {pattern : DomainPattern} {host : DomainName} {before : Bytes}
    (htext : host.text = before ++ pattern.domain.text) (hne : before ≠ []) :
    pattern.matches host = true ↔ before.getLast? = some 46 := by
  rw [DomainPattern.matches_iff, labels, labels, splitOn_suffix_iff, htext]
  constructor
  · rintro (h | ⟨rest, h⟩)
    · exact absurd (List.append_left_eq_self.mp h) hne
    · have hbefore : before = rest ++ [46] := by
        rw [← List.append_cancel_right_eq before pattern.domain.text, h]
        simp
      rw [hbefore, List.getLast?_concat]
  · intro h
    obtain ⟨rest, rfl⟩ := List.getLast?_eq_some_iff.mp h
    exact .inr ⟨rest, by simp⟩

theorem matches_trans {pattern pattern' : DomainPattern} {host host' : DomainName}
    (hname : host'.text = pattern'.domain.text) (h : pattern.matches host' = true)
    (h' : pattern'.matches host = true) : pattern.matches host = true := by
  rw [DomainPattern.matches_iff] at h h' ⊢
  rw [hname] at h
  exact h.trans h'

/-- Every host name is a policy name. -/
theorem validPolicyDomain_of_host (host : DomainName) : validPolicyDomain host.text = true := by
  have hvalid := host.valid
  simp only [validDomain, Bool.and_eq_true, List.all_eq_true] at hvalid
  obtain ⟨⟨hascii, -⟩, hlabels⟩ := hvalid
  have hbyte (b : UInt8) : (Ascii.isAlnum b || b == 45) = true → Ascii.isUpper b = false →
      Proxy.validPolicyByte b = true := by
    revert b; exact forall_byte (by decide +kernel)
  have hlower (b : UInt8) (hb : b ∈ host.text) : Ascii.isUpper b = false := by
    rw [← host.lowercase, lower, List.mem_map] at hb
    obtain ⟨c, -, rfl⟩ := hb
    exact Ascii.isUpper_toLower c
  have hlabel (label : Bytes) (hl : label ∈ labels host.text) :
      label ≠ [] ∧ label.head? ≠ some 45 ∧
        ∀ b ∈ label, (Ascii.isAlnum b || b == 45) = true := by
    have h := hlabels label hl
    simp only [validLabel, Bool.and_eq_true, List.all_eq_true] at h
    exact ⟨by simpa using h.1.1.1.1, by simpa using h.1.1.2, h.2⟩
  have hmem (b : UInt8) (hb : b ∈ host.text) :
      b = 46 ∨ ∃ label ∈ labels host.text, b ∈ label := by
    have hjoin : [46].intercalate (labels host.text) = host.text := List.intercalate_splitOn 46
    rw [← hjoin] at hb
    exact mem_intercalate hb
  obtain ⟨label, hl⟩ := List.exists_mem_of_ne_nil _ (List.splitOn_ne_nil 46 host.text)
  obtain ⟨hne, hhead, hbytes⟩ := hlabel label hl
  obtain ⟨b, rest, rfl⟩ := List.exists_cons_of_ne_nil hne
  have hb : Ascii.isAlnum b = true := by
    have hb := hbytes b List.mem_cons_self
    rw [Bool.or_eq_true, beq_iff_eq] at hb
    exact hb.resolve_right fun h => hhead (by rw [h, List.head?_cons])
  have hin : b ∈ host.text := mem_of_mem_splitOn hl List.mem_cons_self
  have hnonempty : host.text.isEmpty = false := by
    rw [List.isEmpty_eq_false_iff]
    exact List.ne_nil_of_mem hin
  simp only [validPolicyDomain, hascii, hnonempty, Bool.true_and, Bool.not_false, Bool.and_eq_true,
    List.all_eq_true, List.any_eq_true]
  refine ⟨⟨fun label hl => by simpa using (hlabel label hl).1, fun b hb => ?_⟩, b, hin, hb⟩
  rcases hmem b hb with rfl | ⟨label, hl, hbl⟩
  · decide
  · exact hbyte b ((hlabel label hl).2.2 b hbl) (hlower b hb)

/-- A host is accepted as an entry, which matches it. -/
theorem matches_self {h : Bytes} {host : DomainName} (hread : DomainName.fromStr h = some host) :
    ∃ pattern, DomainPattern.fromStr h = some pattern ∧ pattern.matches host = true := by
  have htext := fromStr_host_text hread
  have hpolicy := validPolicyDomain_of_host host
  have hspelling : EntrySpelling host.text h := by
    have htrim : trim h = h := by
      unfold DomainName.fromStr at hread
      split at hread
      · exact absurd hread (by simp)
      · rename_i hn
        simp only [Bool.or_eq_true, not_or, bne_iff_ne, ne_eq, not_not] at hn
        exact hn.2
    cases hs : stripSuffix [46] h with
    | none =>
      rw [hs, Option.getD_none] at htext
      exact ⟨[], [], h, [], by simp [htrim], .inl rfl, by simp, by simp, htext.symm⟩
    | some rest =>
      rw [hs, Option.getD_some] at htext
      refine ⟨[], [], rest, [46], ?_, .inl rfl, by simp, by simp, htext.symm⟩
      rw [htrim, List.nil_append, List.nil_append]
      exact stripSuffix_eq_some.mp hs
  refine ⟨⟨⟨host.text, hpolicy⟩⟩, fromStr_iff_spelling.mpr hspelling, ?_⟩
  rw [DomainPattern.matches_iff]

/-- **Domain matching is label-suffix matching up to normalisation.** An accepted entry matches an
accepted host exactly when its normalised labels end those of the host, never because the two merely
share trailing characters. The texts accepted as one entry are its spellings. The relation is reflexive
and transitive. -/
theorem domain_matching [Host] :
    (∀ p pattern h host, AcceptedEntry p pattern → DomainName.fromStr h = some host →
      (pattern.matches host = true ↔ entryLabels p <:+ hostLabels h)) ∧
    (∀ p pattern h host before, AcceptedEntry p pattern → DomainName.fromStr h = some host →
      host.text = before ++ pattern.domain.text → before ≠ [] → before.getLast? ≠ some 46 →
      pattern.matches host = false) ∧
    (∀ p pattern, AcceptedEntry p pattern → EntrySpelling pattern.domain.text p) ∧
    (∀ p pattern p', AcceptedEntry p pattern → EntrySpelling pattern.domain.text p' →
      AcceptedEntry p' pattern ∧
      ∀ pattern', AcceptedEntry p' pattern' →
        ∀ host, pattern'.matches host = pattern.matches host) ∧
    (∀ h host, DomainName.fromStr h = some host →
      ∃ pattern, AcceptedEntry h pattern ∧ pattern.matches host = true) ∧
    (∀ p pattern q pattern' h host, AcceptedEntry p pattern → AcceptedEntry q pattern' →
      DomainName.fromStr h = some host → pattern'.matches host = true →
      ∃ name, DomainName.fromStr pattern'.domain.text = some name ∧ pattern'.matches name = true ∧
        (pattern.matches name = true → pattern.matches host = true)) := by
  refine ⟨?labels, ?trailing, ?spelling, ?spellings, ?self, ?trans⟩
  case labels =>
    intro p pattern h host hp hh
    rw [DomainPattern.matches_iff, entryLabels, hostLabels, hp.text_eq, ← fromStr_host_text hh]
  case trailing =>
    intro p pattern h host before _ _ htext hne hlast
    rw [Bool.eq_false_iff, ne_eq, matches_trailing htext hne]
    exact hlast
  case spelling =>
    intro p pattern hp
    rw [← hp.text_eq]
    exact spelling_of_bareDomain p
  case spellings =>
    intro p pattern p' hp hspelling
    refine ⟨hp.of_spelling hspelling, fun pattern' hp' host => ?_⟩
    have htext : pattern'.domain.text = pattern.domain.text := by
      rw [← hp'.text_eq, bareDomain_of_spelling pattern.domain.valid hspelling]
    rw [Bool.eq_iff_iff, DomainPattern.matches_iff, DomainPattern.matches_iff, htext]
  case self =>
    intro h host hh
    obtain ⟨pattern, hread, hmatches⟩ := matches_self hh
    exact ⟨pattern, .proxy hread, hmatches⟩
  case trans =>
    intro p pattern q pattern' h host _ _ _ hmatches
    obtain ⟨name, hname, hread⟩ := fromStr_of_matches hmatches
    refine ⟨name, hread, ?_, fun h => matches_trans hname h hmatches⟩
    rw [DomainPattern.matches_iff, hname]

end Vhrn.Cli
