import Vhrn.Proxy.Connect.ResponseHalf

/-!
# The frames of a response body

The frames that the response half yields, in every run of it: any pieces of the origin's stream and any
reads for a frame that are made before it is asked for again. They are the data that was decoded so far,
and at the end of the body its trailers (`frames_run`).
-/

namespace Vhrn.Proxy

open Relation

variable [HttpCrate]

namespace OriginDecoder

variable {decoder decoder' : OriginDecoder} {source source' : Source UInt8}

/-- After trailers, and at the end, a body is complete. -/
def Closes : OriginTurn → Prop
  | .frame (.trailers _) decoder _ | .finished decoder _ => decoder.state = .complete
  | _ => True

theorem turn_closes (decoder : OriginDecoder) (source : Source UInt8) : Closes (decoder.turn source) := by
  have hdata (remaining : ℕ) (after : ℕ → OriginDecoderState) :
      Closes (decoder.dataTurn remaining after source) := by
    unfold dataTurn
    split <;> trivial
  unfold turn
  split
  · rename_i hstate
    exact hstate
  · trivial
  · exact hdata _ _
  · split
    · trivial
    · simp only
      split <;> trivial
  · exact hdata _ _
  · split <;> trivial
  · unfold trailerTurn
    simp only
    split
    · trivial
    · split
      · split
        · trivial
        · split <;> exact rfl
      · split <;> trivial
  · split
    · exact rfl
    · trivial

theorem nextFrame_closes (decoder : OriginDecoder) (source : Source UInt8) :
    Closes (frameTurn (decoder.nextFrame source)) := by
  fun_induction nextFrame decoder source with
  | case1 decoder source decoder' source' hturn ih => exact ih
  | case2 decoder source frame decoder' source' hturn =>
    have hcloses := turn_closes decoder source
    rw [hturn] at hcloses
    exact hcloses
  | case3 decoder source decoder' source' hturn =>
    have hcloses := turn_closes decoder source
    rw [hturn] at hcloses
    exact hcloses
  | case4 decoder source error decoder' source' hturn => trivial

/-- Nothing is read after the end of a body. -/
theorem nextFrame_complete (h : decoder.state = .complete) :
    decoder.nextFrame source = (.ok none, decoder, source) := by
  have hturn : decoder.turn source = .finished decoder source := by
    unfold turn
    rw [h]
  rw [nextFrame]
  split <;> simp_all

/-- A turn and a frame take their part of the body also after some of the reads for them. -/
theorem Reading.law (h : decoder.Reading source) :
    decoder.TurnLaw source (decoder.turn source) ∧
      decoder.TurnLaw source (frameTurn (decoder.nextFrame source)) := by
  obtain ⟨begun, hready, hreads⟩ := h
  have hsame : decoder.turn source = decoder.turn begun ∧ source.content = begun.content := by
    induction hreads with
    | refl => exact ⟨rfl, rfl⟩
    | tail _ hread ih =>
      rw [← turn_reads hread]
      obtain ⟨loop, -, hpass⟩ := hread
      exact ⟨ih.1, (Source.content_pass_more hpass).trans ih.2⟩
  have hbody : decoder.bodyOfContent source.content = decoder.bodyOfContent begun.content := by
    rw [hsame.2]
  rw [nextFrame_of_turn hsame.1, hsame.1]
  exact ⟨(turn_law hready).of_eq hbody, (nextFrame_law hready).of_eq hbody⟩

end OriginDecoder

namespace ResponseHalf

/-- A run of the response half, with the frames that it yielded. -/
inductive Yields (start : ResponseHalf) : ResponseHalf → List BodyFrame → Prop
  | start : Yields start start []
  | quiet {half half' : ResponseHalf} {frames : List BodyFrame} (h : Yields start half frames)
      (hstep : Step half half') (hnone : half'.frame = none) : Yields start half' frames
  | frame {decoder decoder' : OriginDecoder} {source source' : Source UInt8} {frames : List BodyFrame}
      {frame : BodyFrame} (h : Yields start ⟨decoder, source, none⟩ frames)
      (hframe : decoder.nextFrame source = (.ok (some frame), decoder', source')) :
      Yields start ⟨decoder', source', some frame⟩ (frames ++ [frame])

/-- The frames are the data that was decoded, or a whole body. -/
inductive Decoded (body : OriginBody) (half : ResponseHalf) (frames : List BodyFrame) : Prop
  | reading {pieces : List Bytes} (hpieces : ∀ piece ∈ pieces, piece ≠ [])
      (hframes : frames = pieces.map .data) (hreading : half.decoder.Reading half.source)
      (hbody : body = (half.decoder.bodyOfContent half.source.content).prepend pieces.flatten)
  | done {pieces : List Bytes} {trailers : Option HeaderMap} (hpieces : ∀ piece ∈ pieces, piece ≠ [])
      (hframes : frames = pieces.map .data ++ trailers.toList.map .trailers)
      (hcomplete : half.decoder.state = .complete)
      (hbody : body = ⟨pieces.flatten, .ok (trailers, half.source.content)⟩)

variable {start half half' : ResponseHalf} {frames : List BodyFrame} {body : OriginBody}
  {decoder decoder' : OriginDecoder} {source source' : Source UInt8}

theorem prepend_prepend (data data' : Bytes) (body : OriginBody) :
    (body.prepend data').prepend data = body.prepend (data ++ data') := by
  simp [OriginBody.prepend]

theorem prepend_nil (data : Bytes) (ending : Except OriginError (Option HeaderMap × Bytes)) :
    OriginBody.prepend data ⟨[], ending⟩ = ⟨data, ending⟩ := by
  simp [OriginBody.prepend]

/-- A frame that is yielded is the next part of the body. -/
theorem decoded_frame {frame : BodyFrame} (h : Decoded body ⟨decoder, source, none⟩ frames)
    (hframe : decoder.nextFrame source = (.ok (some frame), decoder', source')) :
    Decoded body ⟨decoder', source', some frame⟩ (frames ++ [frame]) := by
  cases h with
  | @reading pieces hpieces hframes hreading hbody =>
    obtain ⟨-, hlaw⟩ := hreading.law
    have hcloses := OriginDecoder.nextFrame_closes decoder source
    simp only at hlaw
    rw [hframe] at hlaw hcloses
    cases frame with
    | data data =>
      obtain ⟨hne, hready, hrest⟩ := hlaw
      refine @Decoded.reading _ _ _ _ (pieces ++ [data]) ?_ ?_ hready.reading ?_
      · exact fun piece hpiece => (List.mem_append.mp hpiece).elim (hpieces piece) fun h =>
          List.mem_singleton.mp h ▸ hne
      · rw [hframes, List.map_append]
        rfl
      · rw [hbody, hrest, prepend_prepend]
        simp
    | trailers trailers =>
      obtain ⟨hready, hrest⟩ := hlaw
      refine @Decoded.done _ _ _ _ _ (some trailers) hpieces ?_ hcloses ?_
      · rw [hframes]
        rfl
      · rw [hbody, hrest, prepend_nil]
  | done _ _ hcomplete =>
    rw [OriginDecoder.nextFrame_complete hcomplete] at hframe
    cases Except.ok.inj (Prod.mk.inj hframe).1

/-- The end of a body is its end. -/
theorem decoded_end (h : Decoded body ⟨decoder, source, none⟩ frames)
    (hend : decoder.nextFrame source = (.ok none, decoder', source')) :
    ∃ (pieces : List Bytes) (trailers : Option HeaderMap), (∀ piece ∈ pieces, piece ≠ []) ∧
      frames = pieces.map .data ++ trailers.toList.map .trailers ∧ decoder'.state = .complete ∧
        body = ⟨pieces.flatten, .ok (trailers, source'.content)⟩ := by
  cases h with
  | @reading pieces hpieces hframes hreading hbody =>
    obtain ⟨-, hlaw⟩ := hreading.law
    have hcloses := OriginDecoder.nextFrame_closes decoder source
    simp only at hlaw
    rw [hend] at hlaw hcloses
    refine ⟨pieces, none, hpieces, ?_, hcloses, ?_⟩
    · rw [hframes]
      exact (List.append_nil _).symm
    · rw [hbody, hlaw.2, prepend_nil]
  | @done pieces trailers hpieces hframes hcomplete hbody =>
    rw [OriginDecoder.nextFrame_complete hcomplete] at hend
    obtain ⟨-, hend⟩ := Prod.mk.inj hend
    obtain ⟨rfl, rfl⟩ := Prod.mk.inj hend
    exact ⟨pieces, trailers, hpieces, hframes, hcomplete, hbody⟩

theorem decoded_quiet (h : Decoded body half frames) (hstep : Step half half')
    (hnone : half'.frame = none) : Decoded body half' frames := by
  cases hstep with
  | @read decoder source source' hread =>
    cases h with
    | reading hpieces hframes hreading hbody =>
      refine .reading hpieces hframes (hreading.read hread) ?_
      obtain ⟨loop, -, hpass⟩ := hread
      rw [hbody, Source.content_pass_more hpass]
    | done _ _ hcomplete =>
      obtain ⟨loop, hloop, -⟩ := hread
      rw [OriginDecoder.loop, hcomplete] at hloop
      cases hloop
  | @turn decoder decoder' source source' hturn =>
    cases h with
    | reading hpieces hframes hreading hbody =>
      obtain ⟨hlaw, -⟩ := hreading.law
      simp only at hlaw
      rw [hturn] at hlaw
      exact .reading hpieces hframes hlaw.2.reading (hbody.trans (by rw [hlaw.1]))
    | done _ _ hcomplete =>
      rw [OriginDecoder.turn, hcomplete] at hturn
      cases hturn
  | @frame decoder decoder' source source' frame hframe =>
    obtain rfl : frame = none := hnone
    obtain ⟨pieces, trailers, hpieces, hframes, hcomplete, hbody⟩ := decoded_end h hframe
    exact .done hpieces hframes hcomplete hbody
  | written =>
    cases h with
    | reading hpieces hframes hreading hbody => exact .reading hpieces hframes hreading hbody
    | done hpieces hframes hcomplete hbody => exact .done hpieces hframes hcomplete hbody

/-- **The frames of every run are the data that was decoded, or the whole body.** -/
theorem frames_run {framing : OriginBodyFraming} {nominations : List HeaderName}
    (hmodest : Modest source) (hrun : Yields ⟨.new framing nominations, source, none⟩ half frames) :
    Decoded ((OriginDecoder.new framing nominations).bodyOfContent source.content) half frames := by
  induction hrun with
  | start =>
    exact @Decoded.reading _ _ _ _ [] (fun _ h => absurd h List.not_mem_nil) rfl
      (OriginDecoder.ready_new framing nominations hmodest).reading rfl
  | quiet _ hstep hnone ih => exact decoded_quiet ih hstep hnone
  | frame _ hframe ih => exact decoded_frame ih hframe

end ResponseHalf

end Vhrn.Proxy
