import Mathlib.Logic.Relation
import Vhrn.Proxy.Headers
import Vhrn.Proxy.Server.Http1.Body

/-!
# What the request side holds

The octets of header fields, and the decoder of request bodies read by read: between two turns it may
have made some of the reads of the next one (`Reading`). The trailers it keeps never take more octets
than their lines did in the stream (`Frugal`), so what it keeps and what is buffered stay within one
limit.
-/

namespace Vhrn.Proxy

variable [HttpCrate]

/-! ## Octets of fields -/

def fieldOctets (field : HeaderName × HeaderValue) : ℕ :=
  field.1.asStr.length + field.2.asBytes.length

def fieldsOctets (fields : List (HeaderName × HeaderValue)) : ℕ := (fields.map fieldOctets).sum

def headerFieldBytes (headers : HeaderMap) : ℕ := fieldsOctets headers.fields

/-- The octets that the lines of the fields take at least. -/
def sectionOctets (headers : HeaderMap) : ℕ := headerFieldBytes headers + 3 * headers.fields.length

theorem fieldsOctets_cons (name : HeaderName) (value : HeaderValue)
    (fields : List (HeaderName × HeaderValue)) : fieldsOctets ((name, value) :: fields) =
      name.asStr.length + value.asBytes.length + fieldsOctets fields := rfl

theorem fieldsOctets_perm {fields fields' : List (HeaderName × HeaderValue)}
    (h : fields.Perm fields') : fieldsOctets fields = fieldsOctets fields' :=
  (h.map fieldOctets).sum_eq

theorem fieldsOctets_sublist {fields fields' : List (HeaderName × HeaderValue)}
    (h : fields.Sublist fields') : fieldsOctets fields ≤ fieldsOctets fields' :=
  (h.map fieldOctets).sum_le_sum fun _ _ => Nat.zero_le _

theorem fields_append (headers : HeaderMap) (name : HeaderName) (value : HeaderValue) :
    (headers.append name value).fields.Perm (headers.fields ++ [(name, value)]) := by
  refine perm_of_valuesOf fun k => ?_
  rw [HeaderMap.valuesOf_fields, HeaderMap.getAll, HttpCrate.getAll_append]
  unfold valuesOf
  rw [List.filter_append, List.map_append]
  change (if k = name then headers.getAll k ++ [value] else headers.getAll k) =
    valuesOf k headers.fields ++ _
  rw [HeaderMap.valuesOf_fields]
  by_cases hname : k = name
  · simp [hname]
  · simp [hname, Ne.symm hname]

theorem fields_remove (headers : HeaderMap) (name : HeaderName) :
    (headers.remove name).fields.Perm (headers.fields.filter fun field => field.1 ≠ name) := by
  refine perm_of_valuesOf fun k => ?_
  rw [HeaderMap.valuesOf_fields, HeaderMap.getAll, HttpCrate.getAll_remove]
  unfold valuesOf
  rw [List.filter_filter]
  by_cases hname : k = name
  · subst hname
    rw [if_pos rfl, List.filter_eq_nil_iff.mpr]
    · rfl
    · intro field _
      simp
  · rw [if_neg hname]
    change headers.getAll k = _
    rw [← HeaderMap.valuesOf_fields]
    unfold valuesOf
    congr 1
    refine List.filter_congr fun field _ => ?_
    by_cases hfield : field.1 = k
    · simp [hfield, hname]
    · simp [hfield]

theorem headerFieldBytes_remove (headers : HeaderMap) (name : HeaderName) :
    headerFieldBytes (headers.remove name) ≤ headerFieldBytes headers :=
  (fieldsOctets_perm (fields_remove headers name)).trans_le
    (fieldsOctets_sublist List.filter_sublist)

theorem headerFieldBytes_removeAll (headers : HeaderMap) (names : List HeaderName) :
    headerFieldBytes (removeAll headers names) ≤ headerFieldBytes headers := by
  induction names generalizing headers with
  | nil => exact le_rfl
  | cons name names ih => exact (ih _).trans (headerFieldBytes_remove headers name)

theorem headerFieldBytes_sanitizeHopByHop {headers sanitized : HeaderMap}
    (h : sanitizeHopByHop headers = some sanitized) :
    headerFieldBytes sanitized ≤ headerFieldBytes headers := by
  obtain ⟨nominated, -, h⟩ := Option.bind_eq_some_iff.mp h
  obtain rfl := Option.some.inj h
  exact (headerFieldBytes_removeAll _ _).trans
    ((headerFieldBytes_removeAll _ _).trans (headerFieldBytes_remove _ _))

theorem sectionOctets_empty : sectionOctets .empty = 0 := by
  rw [sectionOctets, headerFieldBytes, HeaderMap.fields_empty]
  rfl

theorem sectionOctets_append (headers : HeaderMap) (name : HeaderName) (value : HeaderValue) :
    sectionOctets (headers.append name value) =
      sectionOctets headers + fieldOctets (name, value) + 3 := by
  have hperm := fields_append headers name value
  rw [sectionOctets, headerFieldBytes, fieldsOctets_perm hperm, hperm.length_eq, sectionOctets,
    headerFieldBytes, fieldsOctets, List.map_append, List.sum_append, List.length_append]
  simp only [fieldsOctets, List.map_cons, List.map_nil, List.sum_cons, List.sum_nil,
    List.length_cons, List.length_nil]
  omega

/-- **A field takes no more octets than its line.** -/
theorem sectionOctets_appendFieldLine {headers headers' : HeaderMap} {line : Bytes}
    (h : appendFieldLine headers line = .ok headers') :
    sectionOctets headers' ≤ sectionOctets headers + line.length + 2 := by
  unfold appendFieldLine at h
  split at h
  · cases h
  · split at h
    · cases h
    · rename_i name value hsplit
      split at h
      · cases h
      · simp only at h
        split at h
        · cases h
        · split at h
          · rename_i name' value' hname hvalue
            obtain rfl := Except.ok.inj h
            have hline := (splitOnce_eq_some.mp hsplit).1
            have htrim := (trimBy_sublist isOws value).length_le
            have hlength : fieldOctets (name', value') = name.length + (trimOws value).length := by
              rw [fieldOctets, HeaderName.asStr, HeaderValue.asBytes,
                (HttpCrate.nameFromBytes_eq_some hname).1, HttpCrate.valueFromBytes_eq_some hvalue,
                length_lower]
            rw [sectionOctets_append, hlength, hline, List.length_append, List.length_cons]
            unfold trimOws
            omega
          · cases h

/-! ## Reads -/

omit [HttpCrate] in
/-- The loop that waits for the delimiter after the data of a chunk. -/
def delimiterLoop : FillLoop UInt8 where
  Decision := Unit
  scan := ensured 2
  limit := 2
  room := (2 - ·)
  within k hk := by
    show 1 ≤ 2 - k ∧ k + (2 - k) ≤ 2
    omega

/-- The loop of a search within the connection's buffer. -/
def syntaxLoop {ε : Type} (search : Search UInt8 ε) (limit : ℕ)
    (h : limit ≤ connectionBufferLimit) : FillLoop UInt8 :=
  search.loop limit (readRoom limit) (roomWithin_readRoom h)

namespace BodyDecoder

/-- The loop in which the decoder reads into the buffer, where it does. -/
def loop (decoder : BodyDecoder) : Option (FillLoop UInt8) :=
  match decoder.state with
  | .chunkSize => some (syntaxLoop (lineSearch .badRequest) chunkLineLimit (by decide))
  | .chunkDataEnd => some delimiterLoop
  | .trailers =>
    some (syntaxLoop (lineSearch .headersTooLarge) (headerSectionLimit - decoder.trailerOctets)
      ((Nat.sub_le _ _).trans (by decide)))
  | _ => none

/-- The room of the read that the decoder makes next; `none` when it goes on without one. -/
def nextRead (decoder : BodyDecoder) (source : Source UInt8) : Option ℕ :=
  match decoder.state with
  | .fixed 0 => none
  | .fixed remaining | .chunkData remaining =>
    if source.buffered.isEmpty then
      some (min (min remaining requestBodyFrameLimit) requestBodyFrameLimit)
    else none
  | _ => decoder.loop.bind (·.offers source.buffered)

/-- The decoder makes one of the reads of its next turn. -/
def Reads (decoder : BodyDecoder) (source source' : Source UInt8) : Prop :=
  ∃ loop, decoder.loop = some loop ∧ loop.Reads source source'

/-- What the decoder may buffer where it is. -/
def bufferLimit (decoder : BodyDecoder) : ℕ :=
  match decoder.state with
  | .trailers => headerSectionLimit - decoder.trailerOctets
  | _ => requestLineLimit

/-- A decoder and what is buffered, after some of the reads of its next turn. -/
def Reading (decoder : BodyDecoder) (source : Source UInt8) : Prop :=
  ∃ start, Ready decoder start ∧ Relation.ReflTransGen decoder.Reads start source

variable {decoder decoder' : BodyDecoder} {source source' : Source UInt8}

theorem Ready.reading (h : Ready decoder source) : Reading decoder source := ⟨source, h, .refl⟩

/-- **A turn does not depend on the reads of it that have been made.** -/
theorem turn_reads (h : decoder.Reads source source') : decoder.turn source = decoder.turn source' := by
  obtain ⟨loop, hloop, hreads⟩ := h
  unfold BodyDecoder.loop at hloop
  unfold turn
  split at hloop
  · rename_i hstate
    obtain rfl := Option.some.inj hloop
    rw [hstate]
    simp only [Search.read_of_reads hreads]
  · rename_i hstate
    obtain rfl := Option.some.inj hloop
    rw [hstate]
    simp only [ensureBuffered]
    rw [show source.fill (ensured 2) 2 (2 - ·) = source'.fill (ensured 2) 2 (2 - ·) from
      FillLoop.fill_of_reads hreads]
  · rename_i hstate
    obtain rfl := Option.some.inj hloop
    rw [hstate]
    simp only [trailerTurn, Search.read_of_reads hreads]
  · cases hloop

theorem Reading.start (h : Reading decoder source) :
    ∃ start, Ready decoder start ∧ decoder.turn source = decoder.turn start := by
  obtain ⟨start, hready, hreads⟩ := h
  refine ⟨start, hready, ?_⟩
  induction hreads with
  | refl => rfl
  | tail _ hread ih => rw [← turn_reads hread, ih]

theorem Reading.read (h : Reading decoder source) (hread : decoder.Reads source source') :
    Reading decoder source' := by
  obtain ⟨start, hready, hreads⟩ := h
  exact ⟨start, hready, hreads.tail hread⟩

/-- What is buffered stays within the limit of the state. -/
theorem Reading.length_le (h : Reading decoder source) :
    source.buffered.length ≤ decoder.bufferLimit := by
  obtain ⟨start, hready, hreads⟩ := h
  cases hreads with
  | refl =>
    unfold bufferLimit
    split
    · have := hready.within
      omega
    · exact hready.modest
  | tail _ hread =>
    obtain ⟨loop, hloop, hreads⟩ := hread
    refine (FillLoop.length_of_reads hreads).trans ?_
    unfold BodyDecoder.loop at hloop
    unfold bufferLimit
    split at hloop
    · rename_i hstate
      obtain rfl := Option.some.inj hloop
      rw [hstate]
      exact le_rfl
    · rename_i hstate
      obtain rfl := Option.some.inj hloop
      rw [hstate]
      show 2 ≤ requestLineLimit
      decide
    · rename_i hstate
      obtain rfl := Option.some.inj hloop
      rw [hstate]
      exact le_rfl
    · cases hloop

theorem state_of_reading (h : Reading decoder source) : decoder.state ≠ .chunkData 0 := by
  obtain ⟨start, hready, -⟩ := h
  exact hready.remains

/-- **No read is offered without room.** -/
theorem nextRead_pos (h : Reading decoder source) {n : ℕ} (hn : decoder.nextRead source = some n) :
    1 ≤ n := by
  have hframe : 1 ≤ requestBodyFrameLimit := by decide
  unfold nextRead at hn
  split at hn
  · cases hn
  · rename_i remaining hzero hstate
    obtain ⟨-, hn⟩ := Option.ite_none_right_eq_some.mp hn
    obtain rfl := Option.some.inj hn
    have : remaining ≠ 0 := hzero
    omega
  · rename_i remaining hstate
    obtain ⟨-, hn⟩ := Option.ite_none_right_eq_some.mp hn
    obtain rfl := Option.some.inj hn
    have : remaining ≠ 0 := fun hzero => state_of_reading h (by rw [hstate, hzero])
    omega
  · obtain ⟨loop, -, hoffers⟩ := Option.bind_eq_some_iff.mp hn
    exact FillLoop.offers_pos hoffers

/-! ## Trailers -/

/-- The trailers that are kept take no more octets than their lines took, and there are none outside a
trailer section. -/
structure Frugal (decoder : BodyDecoder) : Prop where
  within : sectionOctets decoder.trailerHeaders ≤ decoder.trailerOctets
  fresh : decoder.state ≠ .trailers → decoder.trailerHeaders = .empty

theorem frugal_new (framing : BodyFraming) : Frugal (new framing) :=
  ⟨sectionOctets_empty.le, fun _ => rfl⟩

/-- What is kept outside a trailer section takes nothing. -/
theorem Frugal.of_empty (h : decoder.trailerHeaders = .empty) : Frugal decoder :=
  ⟨by rw [h, sectionOctets_empty]; exact Nat.zero_le _, fun _ => h⟩

/-- What a turn does to what is kept, and the size of what it yields. -/
def TurnFrugal : Turn → Prop
  | .silent decoder _ => Frugal decoder
  | .frame (.data data) decoder _ =>
    decoder.trailerHeaders = .empty ∧ data.length ≤ requestBodyFrameLimit
  | .frame (.trailers trailers) decoder _ =>
    decoder.trailerHeaders = .empty ∧ trailers.isEmpty = false ∧
      sectionOctets trailers + 2 ≤ decoder.trailerOctets
  | .finished decoder _ => decoder.trailerHeaders = .empty
  | .failed .. => True

theorem dataTurn_frugal {remaining : ℕ} {after : ℕ → DecoderState}
    (hempty : decoder.trailerHeaders = .empty) : TurnFrugal (decoder.dataTurn remaining after source) := by
  have hlength : (readBodyData (min remaining requestBodyFrameLimit) source).1.length ≤
      requestBodyFrameLimit := by
    have hle := length_readBodyData (min remaining requestBodyFrameLimit) source
    omega
  unfold dataTurn
  split
  · trivial
  · rename_i hread
    rw [hread] at hlength
    exact ⟨hempty, hlength⟩

theorem trailerTurn_frugal (h : Frugal decoder) (hstate : decoder.state = .trailers) :
    TurnFrugal (decoder.trailerTurn source) := by
  have hfind := @Search.find_of_read _ _ (lineSearch .headersTooLarge)
    (headerSectionLimit - decoder.trailerOctets)
    (readRoom (headerSectionLimit - decoder.trailerOctets)) source
  unfold trailerTurn
  simp only
  generalize (lineSearch .headersTooLarge).read (headerSectionLimit - decoder.trailerOctets)
    (readRoom (headerSectionLimit - decoder.trailerOctets)) source = line at *
  obtain ⟨_ | length, s⟩ := line
  · trivial
  · obtain ⟨hfind, -⟩ := hfind rfl
    obtain ⟨n, -, rfl⟩ := Option.map_eq_some_iff.mp hfind
    have hwithin := h.within
    simp only
    split
    · split
      · trivial
      · split
        · rfl
        · rename_i hnonempty
          refine ⟨rfl, Bool.eq_false_iff.mpr hnonempty, ?_⟩
          show sectionOctets decoder.trailerHeaders + 2 ≤ decoder.trailerOctets + (n + 2)
          omega
    · split
      · trivial
      · rename_i headers happend
        have hle := sectionOctets_appendFieldLine happend
        rw [List.length_take] at hle
        refine ⟨?_, fun hne => absurd hstate hne⟩
        show sectionOctets headers ≤ decoder.trailerOctets + (n + 2)
        omega

/-- **What is kept stays within what was taken.** -/
theorem turn_frugal (h : Frugal decoder) : TurnFrugal (decoder.turn source) := by
  unfold turn
  split
  · rename_i hstate
    exact h.fresh (by rw [hstate]; exact DecoderState.noConfusion)
  · rename_i hstate
    exact .of_empty (h.fresh (by rw [hstate]; exact DecoderState.noConfusion))
  · rename_i hstate
    exact dataTurn_frugal (h.fresh (by rw [hstate]; exact DecoderState.noConfusion))
  · rename_i hstate
    split
    · trivial
    · simp only
      split
      · trivial
      · exact .of_empty (h.fresh (by rw [hstate]; exact DecoderState.noConfusion))
  · rename_i hstate
    exact dataTurn_frugal (h.fresh (by rw [hstate]; exact DecoderState.noConfusion))
  · rename_i hstate
    split
    · split
      · trivial
      · exact .of_empty (h.fresh (by rw [hstate]; exact DecoderState.noConfusion))
    · trivial
  · rename_i hstate
    exact trailerTurn_frugal h hstate

/-! ## Frames -/

def bufferedBytes (decoder : BodyDecoder) : ℕ := headerFieldBytes decoder.trailerHeaders

/-- **What the decoder keeps and what is buffered stay within the limit**, also between two reads. -/
theorem Reading.kept_le (h : Reading decoder source) (hf : Frugal decoder) :
    source.buffered.length + decoder.bufferedBytes ≤ applicationBufferLimit := by
  have hlength := h.length_le
  obtain ⟨start, hready, -⟩ := h
  have hstart := hready.within
  have hwithin := hf.within
  have hlimit : headerSectionLimit = applicationBufferLimit := by decide
  unfold bufferLimit at hlength
  unfold sectionOctets at hwithin
  unfold bufferedBytes
  split at hlength
  · omega
  · rename_i hstate
    have hline : requestLineLimit ≤ applicationBufferLimit := by decide
    have hempty : headerFieldBytes decoder.trailerHeaders = 0 := by
      rw [hf.fresh hstate, headerFieldBytes, HeaderMap.fields_empty]
      rfl
    omega

theorem nextFrame_of_turn (h : decoder.turn source = decoder.turn source') :
    decoder.nextFrame source = decoder.nextFrame source' := by
  rw [nextFrame, nextFrame]
  split <;> split <;> simp_all

theorem nextFrame_frugal (h : Frugal decoder) :
    TurnFrugal (frameTurn (decoder.nextFrame source)) := by
  have hfrugal : TurnFrugal (decoder.turn source) := turn_frugal h
  fun_induction nextFrame decoder source with
  | case1 decoder source decoder' source' hturn ih =>
    rw [hturn] at hfrugal
    exact ih hfrugal (turn_frugal hfrugal)
  | case2 decoder source frame decoder' source' hturn =>
    rw [hturn] at hfrugal
    exact hfrugal
  | case3 decoder source decoder' source' hturn =>
    rw [hturn] at hfrugal
    exact hfrugal
  | case4 decoder source error decoder' source' hturn => trivial

/-- What is true when the next frame of a body has been read, or its end. -/
structure FrameRead (frame : Option BodyFrame) (decoder : BodyDecoder) (source : Source UInt8) :
    Prop where
  ready : Ready decoder source
  empty : decoder.trailerHeaders = .empty
  data_le : ∀ data, frame = some (.data data) → data.length ≤ requestBodyFrameLimit
  trailers_le : ∀ trailers, frame = some (.trailers trailers) → trailers.isEmpty = false ∧
    sectionOctets trailers + 2 ≤ decoder.trailerOctets

theorem nextFrame_spec (h : Reading decoder source) (hf : Frugal decoder) {frame : Option BodyFrame}
    (hframe : decoder.nextFrame source = (.ok frame, decoder', source')) :
    FrameRead frame decoder' source' := by
  obtain ⟨start, hready, hturn⟩ := h.start
  have hlaw := nextFrame_law hready
  have hfrugal : TurnFrugal (frameTurn (decoder.nextFrame source)) := nextFrame_frugal hf
  rw [← nextFrame_of_turn hturn, hframe] at hlaw
  rw [hframe] at hfrugal
  rcases frame with _ | data | trailers
  · exact ⟨hlaw.2.1, hfrugal, fun _ h => (by cases h), fun _ h => by cases h⟩
  · refine ⟨hlaw.2.1, hfrugal.1, fun _ h => ?_, fun _ h => by cases h⟩
    cases h
    exact hfrugal.2
  · refine ⟨hlaw.2.1, hfrugal.1, fun _ h => (by cases h), fun _ h => ?_⟩
    cases h
    exact hfrugal.2

theorem Reading.turn (h : Reading decoder source) (hturn : decoder.turn source = .silent decoder' source') :
    Reading decoder' source' := by
  obtain ⟨start, hready, heq⟩ := h.start
  have hlaw := turn_law hready
  rw [← heq, hturn] at hlaw
  exact hlaw.2.reading

end BodyDecoder

end Vhrn.Proxy
