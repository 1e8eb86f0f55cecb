import Vhrn.Cli.PolicyStore
import Vhrn.Proxy.DenialLog

/-!
# The denial log on the host

The command line reads the denied destinations back as the second words of the lines. An append that
fails within the time of its record leaves text that only lengthens the first word of the next line, but
one that fails later makes the next time a part of a destination. `denial_log_faithful` says that this is
the only way in which the log goes wrong.
-/

namespace Vhrn.Cli

open Proxy (AuditService DenialCall rfc3339 plain_rfc3339)

/-! ## Reading the log -/

def secondWord (line : Bytes) : Option Bytes := (splitWhitespace line)[1]?

/-- The denied destinations of a log. -/
def readDenied (contents : Bytes) : Except InputError (List Bytes) := do
  return (← readLines contents).filterMap secondWord

/-- The log names every destination that was recorded, and only destinations of calls. -/
def LogFaithful (audit : AuditService) (calls : List DenialCall) : Prop :=
  ∃ denied, readDenied (audit.logAfter calls) = .ok denied ∧
    (∀ call ∈ calls, (audit.record call []).1 = .recorded → call.destination.value ∈ denied) ∧
    ∀ destination ∈ denied, ∃ call ∈ calls, call.destination.value = destination

/-- A text that is empty or ends with a line feed. -/
def EndsLine (head : Bytes) : Prop := head = [] ∨ ∃ body, head = body ++ [10]

theorem lines_append_of_endsLine {head : Bytes} (h : EndsLine head) (rest : Bytes) :
    lines (head ++ rest) = lines head ++ lines rest := by
  rcases h with rfl | ⟨body, rfl⟩
  · rfl
  · rw [List.append_assoc]
    exact lines_append body rest

theorem secondWord_tab {w y : Bytes} (hw : Plain w) (hne : w ≠ []) (hy : Plain y) (hy' : y ≠ []) :
    secondWord (w ++ 9 :: y) = some y := by
  rw [secondWord, splitWhitespace_tab hw hne, splitWhitespace_plain hy, endWord, if_neg hy']
  rfl

theorem secondWord_tabs {w y : Bytes} (hw : Plain w) (hne : w ≠ []) (hy : Plain y) (hy' : y ≠ [])
    (rest : Bytes) : secondWord (w ++ 9 :: (y ++ 9 :: rest)) = some y := by
  rw [secondWord, splitWhitespace_tab hw hne, splitWhitespace_tab hy hy']
  rfl

theorem readDenied_logAfter (audit : AuditService) (calls : List DenialCall) :
    readDenied (audit.logAfter calls) = .ok ((lines (audit.logAfter calls)).filterMap secondWord) := by
  have hascii : isAscii (audit.logAfter calls) = true :=
    List.all_eq_true.mpr fun b hb => decide_eq_true (AuditService.byte_logAfter hb).1
  unfold readDenied readLines
  rw [fromUtf8_of_isAscii hascii]
  rfl

/-! ## Logs without torn records -/

theorem plain_destination (call : DenialCall) : Plain call.destination.value := by
  intro b hb
  have h := call.built.byte hb
  simp only [Proxy.destinationByte, Bool.and_eq_true] at h
  exact h.1

theorem append_rfc3339_ne_nil (rest : Bytes) (seconds : ℕ) : rest ++ rfc3339 seconds ≠ [] := by
  intro hnil
  have hmem := Proxy.mem_rfc3339 seconds
  rw [(List.append_eq_nil_iff.mp hnil).2] at hmem
  cases hmem

/-- A log in which every line is that of a call, with nothing but plain text after the lines. -/
def Clean (calls : List DenialCall) (log : Bytes) : Prop :=
  ∃ head rest, log = head ++ rest ∧ EndsLine head ∧ Plain rest ∧
    (lines head).filterMap secondWord =
      (calls.filter DenialCall.complete).map fun call => call.destination.value

theorem Clean.record {calls : List DenialCall} {log : Bytes} (h : Clean calls log) {call : DenialCall}
    (hwhole : ¬ call.Torn) : Clean (calls ++ [call]) (log ++ call.written) := by
  obtain ⟨head, rest, rfl, hhead, hrest, hlines⟩ := h
  rcases call.written_cases with ⟨hwritten, hcomplete, -⟩ | ⟨n, hwritten, hcomplete, -⟩ | ⟨-, -, htorn⟩
  · -- the line is written out, right after the plain text that was left
    have hword : Plain (rest ++ rfc3339 call.seconds) := hrest.append (plain_rfc3339 _)
    have hplain := plain_destination call
    have hends := no_line_end_tab hword.no_line_end hplain.no_line_end
    have hsecond := secondWord_tab hword (append_rfc3339_ne_nil rest _) hplain call.built.ne_nil
    refine ⟨head ++ (rest ++ rfc3339 call.seconds ++ 9 :: call.destination.value ++ [10]), [], ?_,
      .inr ⟨_, (List.append_assoc _ _ _).symm⟩, fun b hb => absurd hb List.not_mem_nil, ?_⟩
    · rw [hwritten, DenialCall.line_eq]
      simp
    · rw [lines_append_of_endsLine hhead, lines_line hends.1 hends.2, List.filterMap_append, hlines,
        List.filterMap_cons, hsecond]
      simp [hcomplete]
  · refine ⟨head, rest ++ (rfc3339 call.seconds).take n, ?_, hhead,
      hrest.append ((plain_rfc3339 _).take n), ?_⟩
    · rw [hwritten, List.append_assoc]
    · rw [hlines]
      simp [hcomplete]
  · exact absurd htorn hwhole

variable {path : Bytes} {calls : List DenialCall}

theorem logAfter_concat (call : DenialCall) :
    (AuditService.mk (some path)).logAfter (calls ++ [call]) =
      (AuditService.mk (some path)).logAfter calls ++ call.written :=
  AuditService.logAfter_concat _ calls call

theorem clean_logAfter (h : ∀ call ∈ calls, ¬ call.Torn) :
    Clean calls ((AuditService.mk (some path)).logAfter calls) := by
  induction calls using List.reverseRecOn with
  | nil => exact ⟨[], [], rfl, .inl rfl, fun b hb => absurd hb List.not_mem_nil, rfl⟩
  | append_singleton calls call ih =>
    rw [logAfter_concat]
    exact (ih fun c hc => h c (List.mem_append_left _ hc)).record (h call (by simp))

theorem recorded_iff (call : DenialCall) :
    ((AuditService.mk (some path)).record call []).1 = .recorded ↔ call.append = .whole := by
  unfold AuditService.record AuditService.result
  cases call.append <;> simp

/-- **A clean log is faithful.** -/
theorem Clean.faithful (h : Clean calls ((AuditService.mk (some path)).logAfter calls)) :
    LogFaithful ⟨some path⟩ calls := by
  refine ⟨_, readDenied_logAfter _ calls, ?_⟩
  obtain ⟨head, rest, hlog, hhead, hrest, hlines⟩ := h
  have hrestWords : (lines rest).filterMap secondWord = [] := by
    rw [lines_of_not_mem hrest.no_line_end.1]
    unfold endWord
    split
    · rfl
    · rename_i hne
      rw [List.filterMap_cons, secondWord, splitWhitespace_plain hrest, endWord, if_neg hne]
      rfl
  rw [hlog, lines_append_of_endsLine hhead, List.filterMap_append, hlines, hrestWords, List.append_nil]
  refine ⟨fun call hcall hrecorded => ?_, fun destination hdestination => ?_⟩
  · have hcomplete : call.complete = true := by
      rw [DenialCall.complete, DenialCall.written, (recorded_iff call).mp hrecorded, beq_self_eq_true]
    exact List.mem_map_of_mem (List.mem_filter.mpr ⟨hcall, hcomplete⟩)
  · obtain ⟨call, hcall, rfl⟩ := List.mem_map.mp hdestination
    exact ⟨call, (List.mem_filter.mp hcall).1, rfl⟩

/-! ## Logs with torn records -/

/-- A log whose last line has a tab and no end yet: the next time will be read as a destination. -/
def Pending (log : Bytes) : Prop :=
  ∃ head w x, log = head ++ (w ++ 9 :: x) ∧ EndsLine head ∧ Plain w ∧ w ≠ [] ∧ Plain x

/-- A log in which something with a capital letter is read as a destination. -/
def Fabricated (log : Bytes) : Prop :=
  ∃ head w y rest, log = head ++ (w ++ 9 :: (y ++ 9 :: rest)) ∧ EndsLine head ∧ Plain w ∧ w ≠ [] ∧
    Plain y ∧ (84 : UInt8) ∈ y

theorem Clean.torn {log : Bytes} (h : Clean calls log) {call : DenialCall} (htorn : call.Torn) :
    Pending (log ++ call.written) := by
  obtain ⟨head, rest, rfl, hhead, hrest, -⟩ := h
  rcases call.written_cases with ⟨-, -, hwhole⟩ | ⟨-, -, -, hwhole⟩ | ⟨n, hwritten, -⟩
  · exact absurd htorn hwhole
  · exact absurd htorn hwhole
  · refine ⟨head, rest ++ rfc3339 call.seconds, call.destination.value.take n, ?_, hhead,
      hrest.append (plain_rfc3339 _), append_rfc3339_ne_nil _ _, (plain_destination call).take n⟩
    rw [hwritten]
    simp

/-- Whatever follows the time of a record, a pending time is fabricated by it. -/
theorem Pending.fabricated {log : Bytes} (h : Pending log) (seconds : ℕ) (rest : Bytes) :
    Fabricated (log ++ (rfc3339 seconds ++ 9 :: rest)) := by
  obtain ⟨head, w, x, rfl, hhead, hw, hne, hx⟩ := h
  refine ⟨head, w, x ++ rfc3339 seconds, rest, by simp, hhead, hw, hne, hx.append (plain_rfc3339 _), ?_⟩
  exact List.mem_append_right _ (Proxy.mem_rfc3339 seconds)

theorem Pending.record {log : Bytes} (h : Pending log) (call : DenialCall) :
    Pending (log ++ call.written) ∨ Fabricated (log ++ call.written) := by
  rcases call.written_cases with ⟨hwritten, -⟩ | ⟨n, hwritten, -⟩ | ⟨n, hwritten, -⟩
  · rw [hwritten]
    exact .inr (h.fabricated _ _)
  · obtain ⟨head, w, x, rfl, hhead, hw, hne, hx⟩ := h
    rw [hwritten]
    exact .inl ⟨head, w, x ++ (rfc3339 call.seconds).take n, by simp, hhead, hw, hne,
      hx.append ((plain_rfc3339 _).take n)⟩
  · rw [hwritten]
    exact .inr (h.fabricated _ _)

theorem Fabricated.append {log : Bytes} (h : Fabricated log) (more : Bytes) : Fabricated (log ++ more) := by
  obtain ⟨head, w, y, rest, rfl, hhead, hw, hne, hy, hcapital⟩ := h
  exact ⟨head, w, y, rest ++ more, by simp, hhead, hw, hne, hy, hcapital⟩

theorem spoiled_logAfter (h : ∃ call ∈ calls, call.Torn) :
    Pending ((AuditService.mk (some path)).logAfter calls) ∨
      Fabricated ((AuditService.mk (some path)).logAfter calls) := by
  induction calls using List.reverseRecOn with
  | nil => simp at h
  | append_singleton calls call ih =>
    rw [logAfter_concat]
    by_cases hbefore : ∃ c ∈ calls, c.Torn
    · rcases ih hbefore with hpending | hfabricated
      · exact hpending.record call
      · exact .inr (hfabricated.append _)
    · have hclean : Clean calls ((AuditService.mk (some path)).logAfter calls) :=
        clean_logAfter fun c hc htorn => hbefore ⟨c, hc, htorn⟩
      obtain ⟨c, hc, htorn⟩ := h
      rcases List.mem_append.mp hc with hc | hc
      · exact absurd ⟨c, hc, htorn⟩ hbefore
      · obtain rfl := List.mem_singleton.mp hc
        exact .inl (hclean.torn htorn)

/-- What is fabricated is read back. -/
theorem Fabricated.denied {log : Bytes} (h : Fabricated log) (hcr : (13 : UInt8) ∉ log) :
    ∃ y ∈ (lines log).filterMap secondWord, (84 : UInt8) ∈ y := by
  obtain ⟨head, w, y, rest, rfl, hhead, hw, hne, hy, hcapital⟩ := h
  have hy' : y ≠ [] := List.ne_nil_of_mem hcapital
  refine ⟨y, ?_, hcapital⟩
  rw [lines_append_of_endsLine hhead, List.filterMap_append]
  refine List.mem_append_right _ (List.mem_filterMap.mpr ?_)
  have hends {r : Bytes} (hr : (10 : UInt8) ∉ r ∧ (13 : UInt8) ∉ r) :=
    no_line_end_tab hw.no_line_end (no_line_end_tab hy.no_line_end hr)
  simp only [List.mem_append, List.mem_cons, not_or] at hcr
  cases hsplit : splitOnce 10 rest with
  | none =>
    have hrest := hends ⟨splitOnce_eq_none.mp hsplit, hcr.2.2.2.2.2⟩
    refine ⟨_, ?_, secondWord_tabs hw hne hy hy' rest⟩
    rw [lines_of_not_mem hrest.1, endWord, if_neg (by simp)]
    exact List.mem_singleton_self _
  | some parts =>
    obtain ⟨r, after⟩ := parts
    obtain ⟨rfl, hr⟩ := splitOnce_eq_some.mp hsplit
    have hrest := hends ⟨hr, fun h => hcr.2.2.2.2.2 (List.mem_append_left _ h)⟩
    refine ⟨_, ?_, secondWord_tabs hw hne hy hy' r⟩
    have hsame : w ++ 9 :: (y ++ 9 :: (r ++ 10 :: after)) =
        (w ++ 9 :: (y ++ 9 :: r)) ++ 10 :: after := by simp
    rw [hsame, lines_append, lines_line hrest.1 hrest.2]
    exact List.mem_append_left _ (List.mem_singleton_self _)

theorem Fabricated.not_faithful (h : Fabricated ((AuditService.mk (some path)).logAfter calls)) :
    ¬ LogFaithful ⟨some path⟩ calls := by
  rintro ⟨denied, hread, -, honly⟩
  rw [readDenied_logAfter] at hread
  obtain rfl := Except.ok.inj hread
  obtain ⟨y, hy, hcapital⟩ := h.denied fun hb => (AuditService.byte_logAfter hb).2 rfl
  obtain ⟨call, -, rfl⟩ := honly y hy
  exact absurd (call.built.byte hcapital) (by decide)

/-- **A log stays faithful, whatever is recorded later, exactly when none of its records is torn.** -/
theorem denial_log_faithful (path : Bytes) (calls : List DenialCall) :
    (∀ more : List DenialCall, (∀ call ∈ more, call.append = .whole) →
        LogFaithful ⟨some path⟩ (calls ++ more)) ↔ ∀ call ∈ calls, ¬ call.Torn := by
  constructor
  · intro h call hcall htorn
    have hspoiled : Pending ((AuditService.mk (some path)).logAfter calls) ∨ _ :=
      spoiled_logAfter ⟨call, hcall, htorn⟩
    rcases hspoiled with hpending | hfabricated
    · let next : DenialCall := { call with append := .whole }
      refine Fabricated.not_faithful ?_ (h [next] (by simp [next]))
      rw [logAfter_concat]
      exact hpending.fabricated _ _
    · have hsame := h [] (fun _ hc => absurd hc List.not_mem_nil)
      rw [List.append_nil] at hsame
      exact hfabricated.not_faithful hsame
  · intro h more hmore
    refine (clean_logAfter fun call hcall => ?_).faithful
    rcases List.mem_append.mp hcall with hcall | hcall
    · exact h call hcall
    · rintro ⟨written, hfails, -⟩
      rw [hmore call hcall] at hfails
      cases hfails

/-- A record that is cut off within its destination hides the next one. -/
theorem torn_record_misread : ¬ ∀ (audit : AuditService) (calls : List DenialCall),
    LogFaithful audit calls := by
  intro h
  let torn : DenialCall :=
    { destination := ⟨ascii "a.example"⟩
      built := .host (.dns ⟨ascii "a.example", by decide, by decide⟩)
      seconds := 0
      append := .fails 24 }
  let next : DenialCall :=
    { destination := ⟨ascii "b.example"⟩
      built := .host (.dns ⟨ascii "b.example", by decide, by decide⟩)
      seconds := 1
      append := .whole }
  obtain ⟨denied, hread, hrecorded, -⟩ := h ⟨some (ascii "denied.log")⟩ [torn, next]
  rw [readDenied_logAfter] at hread
  have hlines : (lines ((AuditService.mk (some (ascii "denied.log"))).logAfter [torn, next])).filterMap
      secondWord = [ascii "a.e1970-01-01T00:00:01Z"] := by decide +kernel
  rw [hlines] at hread
  obtain rfl := Except.ok.inj hread
  have hhidden := hrecorded next (by simp) rfl
  exact absurd hhidden (by decide)

end Vhrn.Cli
