import Vhrn.Cli.DenyProvenance

/-!
# Exact provenance of the effective lists

The effective list of a run is folded from its layers, entry by entry. What the fold has seen so far
is a table (`table`): entries in the order of their first appearance, each with its sources. One
entry changes the table at one place (`addSource_table`), a layer without repetitions adds its source
to the entries it holds, and so the list of the whole run is known in closed form
(`resolveEntries_eq`). Reading a file drops its repetitions, so the layers read from files are such
layers.
-/

namespace Vhrn.Cli

open Proxy

section

variable {α : Type} [DecidableEq α]

/-! ## First appearances -/

theorem pushNew_cons_of_ne {a value : α} (h : a ≠ value) (rest : List α) :
    pushNew (a :: rest) value = a :: pushNew rest value := by
  unfold pushNew
  by_cases hv : value ∈ rest
  · rw [if_pos hv, if_pos (List.mem_cons_of_mem a hv)]
  · rw [if_neg hv, if_neg fun hmem => (List.mem_cons.mp hmem).elim (fun heq => h heq.symm) hv]
    rfl

theorem pushNew_filter (p : α → Bool) (result : List α) (value : α) :
    (pushNew result value).filter p =
      if p value then pushNew (result.filter p) value else result.filter p := by
  unfold pushNew
  cases hp : p value with
  | true => by_cases h : value ∈ result <;> simp [h, hp]
  | false => by_cases h : value ∈ result <;> simp [h, hp]

/-- Values can be dropped before or after the repetitions. -/
theorem foldl_pushNew_filter (p : α → Bool) (values result : List α) :
    (values.filter p).foldl pushNew (result.filter p) = (values.foldl pushNew result).filter p := by
  induction values generalizing result with
  | nil => rfl
  | cons value values ih =>
    rw [List.foldl_cons, ← ih, pushNew_filter, List.filter_cons]
    cases p value <;> rfl

theorem foldl_pushNew_flatMap {ι : Type} (f : ι → List α) (is : List ι) (result : List α) :
    (is.flatMap fun i => (f i).foldl pushNew []).foldl pushNew result =
      (is.flatMap f).foldl pushNew result := by
  induction is generalizing result with
  | nil => rfl
  | cons i is ih =>
    rw [List.flatMap_cons, List.flatMap_cons, List.foldl_append, List.foldl_append,
      foldl_pushNew_foldl, ih]

/-- What is kept stands in the order of the first appearances. -/
theorem pairwise_foldl_pushNew (values : List α) :
    (values.foldl pushNew []).Pairwise fun a b => values.idxOf a < values.idxOf b := by
  induction values using List.reverseRecOn with
  | nil => exact List.Pairwise.nil
  | append_singleton values value ih =>
    have hmem {a : α} (ha : a ∈ values.foldl pushNew []) : a ∈ values := by
      simpa using mem_foldl_pushNew.mp ha
    have hold : (values.foldl pushNew []).Pairwise fun a b =>
        (values ++ [value]).idxOf a < (values ++ [value]).idxOf b := by
      refine ih.imp_of_mem fun ha hb hlt => ?_
      rwa [List.idxOf_append_of_mem (hmem ha), List.idxOf_append_of_mem (hmem hb)]
    rw [List.foldl_append, List.foldl_cons, List.foldl_nil, pushNew]
    split
    · exact hold
    · rename_i hnew
      refine List.pairwise_append.mpr ⟨hold, List.pairwise_singleton _ _, fun a ha b hb => ?_⟩
      obtain rfl := List.mem_singleton.mp hb
      have hnot : b ∉ values := fun h => hnew (mem_foldl_pushNew.mpr (.inr h))
      have hlt := List.idxOf_lt_length_of_mem (hmem ha)
      rw [List.idxOf_append_of_mem (hmem ha), List.idxOf_append_of_notMem hnot]
      omega

/-! ## The table of what has been resolved -/

/-- Entries in order, each with its sources. -/
def table (entries : List α) (sources : α → List LayerSource) : List (Resolved α) :=
  entries.map fun e => ⟨e, sources e⟩

omit [DecidableEq α] in
theorem table_congr {entries : List α} {sources sources' : α → List LayerSource}
    (h : ∀ e ∈ entries, sources e = sources' e) : table entries sources = table entries sources' :=
  List.map_congr_left fun e he => by rw [h e he]

omit [DecidableEq α] in
theorem entry_table (entries : List α) (sources : α → List LayerSource) :
    (table entries sources).map Resolved.entry = entries := by
  rw [table, List.map_map]
  exact List.map_id entries

theorem sourcesOf_table {entries : List α} {sources : α → List LayerSource}
    (hrest : ∀ e ∉ entries, sources e = []) (e : α) :
    sourcesOf (table entries sources) e = sources e := by
  have hmem : e ∈ entries → sourcesOf (table entries sources) e = sources e := by
    clear hrest
    induction entries with
    | nil => exact fun h => absurd h List.not_mem_nil
    | cons entry entries ih =>
      intro h
      show sourcesOf (⟨entry, sources entry⟩ :: table entries sources) e = _
      rw [sourcesOf_cons]
      split
      · rename_i heq
        rw [← heq]
      · rename_i hne
        exact ih ((List.mem_cons.mp h).resolve_left fun heq => hne heq.symm)
  by_cases he : e ∈ entries
  · exact hmem he
  · rw [hrest e he, sourcesOf, List.find?_eq_none.mpr]
    · rfl
    · rintro r hr
      obtain ⟨entry, hentry, rfl⟩ := List.mem_map.mp hr
      simp only [decide_eq_true_eq]
      rintro rfl
      exact he hentry

omit [DecidableEq α] in
theorem filter_table (p : α → Bool) (entries : List α) (sources : α → List LayerSource) :
    (table entries sources).filter (fun r => p r.entry) = table (entries.filter p) sources := by
  rw [table, List.filter_map]
  rfl

/-- **One more source of an entry changes its row alone, at the end for a new entry.** -/
theorem addSource_table (source : LayerSource) {entry : α} {entries : List α}
    {sources : α → List LayerSource} (hnodup : entries.Nodup)
    (hnew : entry ∉ entries → sources entry = []) :
    addSource source entry (table entries sources) = table (pushNew entries entry)
      (Function.update sources entry (sources entry ++ [source])) := by
  induction entries with
  | nil =>
    rw [hnew List.not_mem_nil]
    simp [table, addSource, pushNew]
  | cons e rest ih =>
    obtain ⟨he, hrest⟩ := List.nodup_cons.mp hnodup
    show addSource source entry (⟨e, sources e⟩ :: table rest sources) = _
    rw [addSource]
    by_cases heq : e = entry
    · subst heq
      rw [if_pos rfl, pushNew, if_pos List.mem_cons_self]
      show _ = Resolved.mk e _ :: table rest _
      rw [Function.update_self]
      refine congrArg _ (table_congr fun a ha => (Function.update_of_ne ?_ _ _).symm)
      rintro rfl
      exact he ha
    · have hnew' : entry ∉ rest → sources entry = [] := fun h =>
        hnew fun hmem => (List.mem_cons.mp hmem).elim (fun h' => heq h'.symm) h
      rw [if_neg heq, pushNew_cons_of_ne heq, ih hrest hnew']
      show _ = Resolved.mk e _ :: table (pushNew rest entry) _
      rw [Function.update_of_ne heq]

/-- A layer adds its source to the entries it holds. -/
theorem addLayer_table (source : LayerSource) {layer entries : List α}
    {sources : α → List LayerSource} (hlayer : layer.Nodup) (hnodup : entries.Nodup)
    (hrest : ∀ e ∉ entries, sources e = []) :
    layer.foldl (fun output entry => addSource source entry output) (table entries sources) =
      table (layer.foldl pushNew entries)
        (fun e => sources e ++ if e ∈ layer then [source] else []) := by
  induction layer generalizing entries sources with
  | nil =>
    refine table_congr fun e _ => ?_
    rw [if_neg List.not_mem_nil, List.append_nil]
  | cons entry layer ih =>
    obtain ⟨hentry, hlayer⟩ := List.nodup_cons.mp hlayer
    have hrest' : ∀ e ∉ pushNew entries entry,
        Function.update sources entry (sources entry ++ [source]) e = [] := by
      intro e he
      rw [mem_pushNew, not_or] at he
      rw [Function.update_of_ne he.2]
      exact hrest e he.1
    rw [List.foldl_cons, List.foldl_cons, addSource_table source hnodup (hrest entry),
      ih hlayer (nodup_pushNew hnodup entry) hrest']
    refine table_congr fun e _ => ?_
    by_cases he : e = entry
    · subst he
      rw [Function.update_self, if_neg hentry, if_pos List.mem_cons_self, List.append_nil]
    · rw [Function.update_of_ne he]
      refine congrArg _ (if_congr ?_ rfl rfl)
      simp [he]

/-- The layers that hold an entry, in order. -/
def naming {ι : Type} (holds : ι → List α) (layers : List (ι × LayerSource)) (e : α) :
    List LayerSource :=
  (layers.filter fun layer => e ∈ holds layer.1).map Prod.snd

theorem naming_cons {ι : Type} (holds : ι → List α) (layer : ι × LayerSource)
    (layers : List (ι × LayerSource)) (e : α) : naming holds (layer :: layers) e =
      (if e ∈ holds layer.1 then [layer.2] else []) ++ naming holds layers e := by
  unfold naming
  rw [List.filter_cons]
  by_cases h : e ∈ holds layer.1 <;> simp [h]

theorem naming_append {ι : Type} (holds : ι → List α) (layers layers' : List (ι × LayerSource))
    (e : α) : naming holds (layers ++ layers') e =
      naming holds layers e ++ naming holds layers' e := by
  rw [naming, List.filter_append, List.map_append]
  rfl

theorem naming_eq_nil {ι : Type} {holds : ι → List α} {layers : List (ι × LayerSource)} {e : α} :
    naming holds layers e = [] ↔ e ∉ layers.flatMap fun layer => holds layer.1 := by
  simp [naming, List.filter_eq_nil_iff]

/-- **The effective list has the entries of the layers in order, each with the layers that hold
it.** -/
theorem resolveEntries_eq {layers : List (List α × LayerSource)}
    (hlayers : ∀ layer ∈ layers, layer.1.Nodup) : resolveEntries layers =
      table ((layers.flatMap Prod.fst).foldl pushNew []) (naming id layers) := by
  have hrun (entries : List α) (sources : α → List LayerSource) (hnodup : entries.Nodup)
      (hrest : ∀ e ∉ entries, sources e = []) :
      layers.foldl (fun output layer => layer.1.foldl (fun output entry =>
          addSource layer.2 entry output) output) (table entries sources) =
        table ((layers.flatMap Prod.fst).foldl pushNew entries)
          (fun e => sources e ++ naming id layers e) := by
    induction layers generalizing entries sources with
    | nil => exact table_congr fun e _ => (List.append_nil _).symm
    | cons layer layers ih =>
      obtain ⟨hlayer, hlayers⟩ := List.forall_mem_cons.mp hlayers
      have hrest' : ∀ e ∉ layer.1.foldl pushNew entries,
          sources e ++ (if e ∈ layer.1 then [layer.2] else []) = [] := by
        intro e he
        rw [mem_foldl_pushNew, not_or] at he
        rw [hrest e he.1, if_neg he.2, List.append_nil]
      rw [List.foldl_cons, addLayer_table layer.2 hlayer hnodup hrest,
        ih hlayers _ _ (nodup_foldl_pushNew hnodup layer.1) hrest', List.flatMap_cons,
        List.foldl_append]
      refine table_congr fun e _ => ?_
      rw [naming_cons, List.append_assoc]
      rfl
  refine (hrun [] (fun _ => []) List.nodup_nil fun _ _ => rfl).trans (table_congr fun e _ => ?_)
  exact List.nil_append _

/-! ## Layer files -/

/-- The entries that the lines of a file spell, in order and with repetitions. -/
def spelled (normalize : Bytes → Except InputError α) (contents : Bytes) : List α :=
  match readLines contents with
  | .ok lines => lines.filterMap fun line => (normalize line).toOption
  | .error _ => []

omit [DecidableEq α] in
theorem filterMap_of_mapM {normalize : Bytes → Except InputError α} {inputs : List Bytes}
    {values : List α} (h : inputs.mapM normalize = .ok values) :
    inputs.filterMap (fun input => (normalize input).toOption) = values := by
  rw [mapM_eq_ok] at h
  induction h with
  | nil => rfl
  | cons hvalue _ ih =>
    rw [List.filterMap_cons, hvalue, ih]
    rfl

/-- What the effective list of layer files says. -/
structure ExactProvenance (spelled : Bytes → List α) (files : List (Bytes × LayerSource))
    (out : List (Resolved α)) : Prop where
  once : (out.map Resolved.entry).Nodup
  union : ∀ e, e ∈ out.map Resolved.entry ↔ ∃ file ∈ files, e ∈ spelled file.1
  order : (out.map Resolved.entry).Pairwise fun a b =>
    (files.flatMap fun file => spelled file.1).idxOf a <
      (files.flatMap fun file => spelled file.1).idxOf b
  sources : ∀ r ∈ out, r.sources = naming spelled files r.entry

/-- What the removal of an entry from one layer changes: that source, at its place. -/
structure Removed (spelled : Bytes → List α) (before after : List (Bytes × LayerSource))
    (source : LayerSource) (e : α) (out out' : List (Resolved α)) : Prop where
  others : out'.filter (fun r => r.entry ≠ e) = out.filter fun r => r.entry ≠ e
  was : sourcesOf out e = naming spelled before e ++ source :: naming spelled after e
  now : sourcesOf out' e = naming spelled before e ++ naming spelled after e
  listed : e ∈ out'.map Resolved.entry ↔ naming spelled before e ++ naming spelled after e ≠ []

/-- How the layers of one kind are resolved from their files. -/
structure LayersLaw (normalize : Bytes → Except InputError α)
    (read : Bytes → Except InputError (List α))
    (effective : List (Bytes × LayerSource) → Except InputError (List (Resolved α))) : Prop where
  accepted : ∀ files, (∃ out, effective files = .ok out) ↔
    ∀ file ∈ files, ∃ entries, read file.1 = .ok entries
  exact : ∀ files out, effective files = .ok out → ExactProvenance (spelled normalize) files out
  removal : ∀ before after source contents contents' entries e out,
    effective (before ++ (contents, source) :: after) = .ok out → read contents = .ok entries →
    e ∈ entries → read contents' = .ok (entries.filter (· ≠ e)) →
    ∃ out', effective (before ++ (contents', source) :: after) = .ok out' ∧
      Removed (spelled normalize) before after source e out out'

section

variable {normalize : Bytes → Except InputError α} {read : Bytes → Except InputError (List α)}
  (hread : ∀ contents, read contents = readLines contents >>= normalizeAll normalize)

include hread

/-- A file is read to what its lines spell, without the repetitions. -/
theorem eq_spelled_of_read {contents : Bytes} {entries : List α} (h : read contents = .ok entries) :
    entries = (spelled normalize contents).foldl pushNew [] := by
  rw [hread] at h
  unfold spelled
  cases hlines : readLines contents with
  | error e => rw [hlines] at h; cases h
  | ok ls =>
    rw [hlines] at h
    obtain ⟨all, hall, rfl⟩ := normalizeAll_eq_ok.mp h
    show _ = List.foldl pushNew [] (ls.filterMap _)
    rw [filterMap_of_mapM hall]

variable {effective : List (Bytes × LayerSource) → Except InputError (List (Resolved α))}
  (heffective : ∀ files, effective files = (do
    let layers ← files.mapM fun file => do return (← read file.1, file.2)
    return resolveEntries layers))

include heffective

theorem effective_eq_ok {files : List (Bytes × LayerSource)} {out : List (Resolved α)} :
    effective files = .ok out ↔ (∀ file ∈ files, ∃ entries, read file.1 = .ok entries) ∧
      out = table ((files.flatMap fun file => spelled normalize file.1).foldl pushNew [])
        (naming (spelled normalize) files) := by
  have hlayer (file : Bytes × LayerSource) (layer : List α × LayerSource) :
      (do return (← read file.1, file.2) : Except InputError (List α × LayerSource)) = .ok layer ↔
        (∃ entries, read file.1 = .ok entries) ∧
          layer = ((spelled normalize file.1).foldl pushNew [], file.2) := by
    cases hfile : read file.1 with
    | error e =>
      constructor
      · rintro ⟨⟩
      · rintro ⟨⟨_, ⟨⟩⟩, -⟩
    | ok entries =>
      rw [← eq_spelled_of_read hread hfile]
      constructor
      · rintro ⟨⟩
        exact ⟨⟨entries, rfl⟩, rfl⟩
      · rintro ⟨-, rfl⟩
        rfl
  have hall (layers : List (List α × LayerSource)) :
      files.mapM (fun file => do return (← read file.1, file.2)) = .ok layers ↔
        (∀ file ∈ files, ∃ entries, read file.1 = .ok entries) ∧
          layers = files.map fun file => ((spelled normalize file.1).foldl pushNew [], file.2) := by
    rw [mapM_eq_ok]
    simp only [hlayer]
    clear heffective
    induction files generalizing layers with
    | nil => simp
    | cons file files ih =>
      constructor
      · rintro (_ | @⟨_, layer, _, layers, ⟨hfile, rfl⟩, hrest⟩)
        obtain ⟨hfiles, rfl⟩ := (ih layers).mp hrest
        exact ⟨List.forall_mem_cons.mpr ⟨hfile, hfiles⟩, rfl⟩
      · rintro ⟨hfiles, rfl⟩
        obtain ⟨hfile, hfiles⟩ := List.forall_mem_cons.mp hfiles
        exact .cons ⟨hfile, rfl⟩ ((ih _).mpr ⟨hfiles, rfl⟩)
  have hresolve : resolveEntries
      (files.map fun file => ((spelled normalize file.1).foldl pushNew [], file.2)) =
      table ((files.flatMap fun file => spelled normalize file.1).foldl pushNew [])
        (naming (spelled normalize) files) := by
    rw [resolveEntries_eq, List.flatMap_map]
    · rw [foldl_pushNew_flatMap]
      refine table_congr fun e _ => ?_
      rw [naming, naming, List.filter_map, List.map_map]
      refine congrArg _ (List.filter_congr fun file _ => ?_)
      simp [mem_foldl_pushNew]
    · rintro layer hlayer
      obtain ⟨file, -, rfl⟩ := List.mem_map.mp hlayer
      exact nodup_foldl_pushNew List.nodup_nil _
  rw [heffective]
  cases hmap : files.mapM (fun file => do return (← read file.1, file.2)) with
  | error e =>
    constructor
    · rintro ⟨⟩
    · rintro ⟨hfiles, -⟩
      rw [(hall _).mpr ⟨hfiles, rfl⟩] at hmap
      cases hmap
  | ok layers =>
    obtain ⟨hfiles, rfl⟩ := (hall layers).mp hmap
    show Except.ok (resolveEntries _) = .ok out ↔ _
    rw [hresolve]
    constructor
    · rintro ⟨⟩
      exact ⟨hfiles, rfl⟩
    · rintro ⟨-, rfl⟩
      rfl

omit hread heffective in
theorem sourcesOf_naming (spelled : Bytes → List α) (files : List (Bytes × LayerSource)) (e : α) :
    sourcesOf (table ((files.flatMap fun file => spelled file.1).foldl pushNew [])
      (naming spelled files)) e = naming spelled files e := by
  refine sourcesOf_table (fun a ha => naming_eq_nil.mpr fun hmem => ha ?_) e
  exact mem_foldl_pushNew.mpr (.inr hmem)

omit hread heffective in
theorem exact_table (spelled : Bytes → List α) (files : List (Bytes × LayerSource)) :
    ExactProvenance spelled files (table ((files.flatMap fun file => spelled file.1).foldl pushNew [])
      (naming spelled files)) where
  once := by
    rw [entry_table]
    exact nodup_foldl_pushNew List.nodup_nil _
  union e := by
    rw [entry_table, mem_foldl_pushNew]
    simp
  order := by
    rw [entry_table]
    exact pairwise_foldl_pushNew _
  sources r hr := by
    obtain ⟨e, -, rfl⟩ := List.mem_map.mp hr
    rfl

omit hread heffective in
/-- A layer that lacks one entry loses that source of that entry. -/
theorem removed_table {spelled : Bytes → List α} {before after : List (Bytes × LayerSource)}
    {source : LayerSource} {contents contents' : Bytes} {e : α} (hheld : e ∈ spelled contents)
    (hfirsts : (spelled contents').foldl pushNew [] =
      ((spelled contents).foldl pushNew []).filter (· ≠ e)) :
    Removed spelled before after source e
      (table (((before ++ (contents, source) :: after).flatMap fun file =>
          spelled file.1).foldl pushNew [])
        (naming spelled (before ++ (contents, source) :: after)))
      (table (((before ++ (contents', source) :: after).flatMap fun file =>
          spelled file.1).foldl pushNew [])
        (naming spelled (before ++ (contents', source) :: after))) := by
  have hmem (a : α) : a ∈ spelled contents' ↔ a ∈ spelled contents ∧ a ≠ e := by
    have h : a ∈ (spelled contents').foldl pushNew [] ↔
        a ∈ ((spelled contents).foldl pushNew []).filter (· ≠ e) := by rw [hfirsts]
    simpa [mem_foldl_pushNew] using h
  have hgone : e ∉ spelled contents' := fun h => ((hmem e).mp h).2 rfl
  have hnow : naming spelled (before ++ (contents', source) :: after) e =
      naming spelled before e ++ naming spelled after e := by
    rw [naming_append, naming_cons, if_neg hgone, List.nil_append]
  have hfilter (values : List α) : (values.foldl pushNew []).filter (· ≠ e) =
      (values.filter (· ≠ e)).foldl pushNew [] :=
    (foldl_pushNew_filter (fun a => decide (a ≠ e)) values []).symm
  have hrest (c : Bytes) : (((before ++ (c, source) :: after).flatMap fun file =>
      spelled file.1).foldl pushNew []).filter (· ≠ e) =
      ((before.flatMap fun file => spelled file.1).filter (· ≠ e) ++
        (((spelled c).foldl pushNew []).filter (· ≠ e) ++
          (after.flatMap fun file => spelled file.1).filter (· ≠ e))).foldl pushNew [] := by
    rw [hfilter, hfilter, List.flatMap_append, List.flatMap_cons, List.filter_append,
      List.filter_append, List.foldl_append, List.foldl_append, List.foldl_append,
      List.foldl_append, foldl_pushNew_foldl]
  refine ⟨?_, ?_, ?_, ?_⟩
  · rw [filter_table (fun a => decide (a ≠ e)), filter_table (fun a => decide (a ≠ e)), hrest,
      hrest, hfirsts, List.filter_filter]
    simp only [Bool.and_self]
    refine table_congr fun a ha => ?_
    have hne : a ≠ e := by
      rintro rfl
      simp [mem_foldl_pushNew] at ha
    rw [naming_append, naming_append, naming_cons, naming_cons]
    refine congrArg (_ ++ ·) (congrArg (· ++ _) (if_congr ?_ rfl rfl))
    rw [hmem]
    exact and_iff_left hne
  · rw [sourcesOf_naming, naming_append, naming_cons, if_pos hheld]
    rfl
  · rw [sourcesOf_naming, hnow]
  · rw [entry_table, mem_foldl_pushNew, ← hnow, Ne, naming_eq_nil, not_not]
    exact or_iff_right List.not_mem_nil

/-- **The effective list reports exact provenance.** -/
theorem layersLaw : LayersLaw normalize read effective where
  accepted files := by
    simp only [effective_eq_ok hread heffective]
    exact ⟨fun ⟨_, h, _⟩ => h, fun h => ⟨_, h, rfl⟩⟩
  exact files out h := by
    obtain ⟨-, rfl⟩ := (effective_eq_ok hread heffective).mp h
    exact exact_table _ _
  removal before after source contents contents' entries e out h hcontents hmem hcontents' := by
    obtain ⟨hfiles, rfl⟩ := (effective_eq_ok hread heffective).mp h
    have hfile : ∀ file ∈ before ++ (contents', source) :: after,
        ∃ entries, read file.1 = .ok entries := by
      intro file hmem
      rcases List.mem_append.mp hmem with hb | hb
      · exact hfiles file (List.mem_append_left _ hb)
      · rcases List.mem_cons.mp hb with rfl | ha
        · exact ⟨_, hcontents'⟩
        · exact hfiles file (List.mem_append_right _ (List.mem_cons_of_mem _ ha))
    refine ⟨_, (effective_eq_ok hread heffective).mpr ⟨hfile, rfl⟩, removed_table ?_ ?_⟩
    · rw [eq_spelled_of_read hread hcontents, mem_foldl_pushNew] at hmem
      simpa using hmem
    · rw [← eq_spelled_of_read hread hcontents', ← eq_spelled_of_read hread hcontents]

end

end

/-! ## Names and authorities -/

section

variable [Host]

/-- The effective names of layer files. -/
def effectiveDomains (files : List (Bytes × LayerSource)) :
    Except InputError (List (Resolved PolicyName)) := do
  let layers ← files.mapM fun file => do return (← readDomains file.1, file.2)
  resolveLayers (layers.map fun layer => (layer.1.map PolicyName.text, layer.2))

omit [Host] in
/-- The effective loopback authorities of layer files. -/
def effectiveLoopbacks (files : List (Bytes × LayerSource)) :
    Except InputError (List (Resolved LoopbackAuthority)) := do
  let layers ← files.mapM fun file => do return (← readLoopbackAuthorities file.1, file.2)
  return resolveLoopbackLayers layers

/-- The files of the names of a listed run. -/
def ProxyLayers.domainFiles {store : Store} {run : ActiveRun} (layers : ProxyLayers store run) :
    List (Bytes × LayerSource) :=
  [(layers.dir.base, .base), (layers.dir.harnessAllow, .harness run.harness),
    (layers.global, .global), (layers.project.allow, .project layers.dir.projectPath),
    (layers.dir.run, .run run.id)]

/-- The files of the loopback authorities of a listed run. -/
def ProxyLayers.loopbackFiles {store : Store} {run : ActiveRun} (layers : ProxyLayers store run) :
    List (Bytes × LayerSource) :=
  [(layers.loopback, .global), (layers.project.loopback, .project layers.dir.projectPath),
    (layers.dir.loopback, .run run.id)]

/-- What layer resolution reports of any files, and of the files of a listed run. -/
structure ProvenanceExact : Prop where
  domains : LayersLaw normalizeDomain readDomains effectiveDomains
  loopbacks : LayersLaw parseAuthority readLoopbackAuthorities effectiveLoopbacks
  runs : ∀ store store' snap, snapshotLocked.exec store = (.ok snap, store') →
    ∀ run ∈ snap.runs, ∃ layers : ProxyLayers store' run,
      effectiveDomains layers.domainFiles = .ok run.effective ∧
      effectiveLoopbacks layers.loopbackFiles = .ok run.effectiveLoopback

/-- **Layer resolution reports exact provenance.** -/
theorem provenance_exact : ProvenanceExact where
  domains := by
    refine layersLaw (fun _ => rfl) fun files => ?_
    unfold effectiveDomains
    refine congrArg _ (funext fun layers => ?_)
    exact resolveLayers_text layers
  loopbacks := layersLaw (fun _ => rfl) fun _ => rfl
  runs store store' snap h run hrun := by
    obtain ⟨global, loopback, hglobal, hloopback, hdomains, hauthorities, hprojects, runs, hperm,
      hruns⟩ := snapshotLocked_eq_ok h
    obtain ⟨dir, hdir, hactive⟩ := exists_left_of_forall₂ hruns (hperm.mem_iff.mp hrun)
    obtain ⟨project, hproject, bases, allowed, granted, authorities, hread⟩ := activeRun_eq_ok hactive
    obtain ⟨projectDir, hprojectDir, hkey, hpd, hpl⟩ := mem_projects hprojects hproject
    refine ⟨⟨dir, projectDir, global, loopback, hdir, hread.id.symm, hprojectDir,
      hkey.trans hread.projectKey, hglobal, hloopback⟩, ?_, ?_⟩
    · simp only [effectiveDomains, ProxyLayers.domainFiles, List.mapM_cons, List.mapM_nil,
        hread.base, hread.harnessAllow, hdomains, hpd, hread.runAllow]
      rw [hread.effective, ← resolveLayers_text, hread.id]
      rfl
    · simp only [effectiveLoopbacks, ProxyLayers.loopbackFiles, List.mapM_cons, List.mapM_nil,
        hauthorities, hpl, hread.runLoopback]
      rw [hread.effectiveLoopback, hread.id]
      rfl

end

end Vhrn.Cli
