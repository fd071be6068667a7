import Beamline.Proofs.Figure.Picture
import Beamline.Proofs.Run.Action
import Beamline.Proofs.StepSeries.Encodings
import Beamline.Proofs.Text.Utf8
import Beamline.Run.Steps

/-!
# The step run — in stages, and never out of order

A step run loads, echoes and draws, and each stage waits for the one before. The echo is handed over
in pieces, to a reader who may stop in the middle of one; what has been taken then is the front of
the whole echo all the same, as a reader with room for some bytes takes of two pieces what it takes
of the two put together (`handOver_eq`).

Drawing makes a folder, asks the renderer for a picture and writes it to a file. If the renderer
refuses, no file has been touched, and what stood where the figure would be stands there still. If
the folder or the file is what fails, no file stands there at all: one could have been replaced, and
its folder would have been there. So a run that fails has not written the figure, and one that
succeeds has.
-/

set_option autoImplicit false

namespace Beamline

/-! ## Reading along -/

namespace Reader

variable (r : Reader) {piece : List UInt8} (rest : List UInt8)

theorem taken_append_of_takesAll (h : r.takesAll piece = true) :
    r.taken (piece ++ rest) = piece ++ (r.after piece).taken rest := by
  rcases r with ⟨_ | k⟩
  · rfl
  · have hroom : piece.length ≤ k := by simpa [takesAll] using h
    simp [taken, after, List.take_append, List.take_of_length_le hroom]

theorem takesAll_append_of_takesAll (h : r.takesAll piece = true) :
    r.takesAll (piece ++ rest) = (r.after piece).takesAll rest := by
  rcases r with ⟨_ | k⟩
  · rfl
  · have hroom : piece.length ≤ k := by simpa [takesAll] using h
    simp only [takesAll, after, Option.map_some, List.length_append, decide_eq_decide]
    omega

theorem taken_of_takesAll {r : Reader} (h : r.takesAll piece = true) : r.taken piece = piece := by
  rcases r with ⟨_ | k⟩
  · rfl
  · exact List.take_of_length_le (by simpa [takesAll] using h)

theorem append_of_not_takesAll (h : r.takesAll piece = false) :
    r.taken (piece ++ rest) = r.taken piece ∧ r.takesAll (piece ++ rest) = false := by
  rcases r with ⟨_ | k⟩
  · cases h
  · have hroom : k < piece.length := by simpa [takesAll] using h
    constructor
    · exact List.take_append_of_le_length hroom.le
    · simp only [takesAll, List.length_append, decide_eq_false_iff_not]
      omega

/-- **Of pieces, a reader takes what it takes of them put together.** -/
theorem handOver_eq (pieces : List (List UInt8)) :
    r.handOver pieces = (r.taken pieces.flatten,
      if r.takesAll pieces.flatten then .ok () else .error .brokenPipe) := by
  induction pieces generalizing r with
  | nil => rcases r with ⟨_ | k⟩ <;> simp [handOver, taken, takesAll]
  | cons piece pieces ih =>
    rw [handOver, List.flatten_cons]
    cases h : r.takesAll piece with
    | true =>
      rw [taken_append_of_takesAll r _ h, takesAll_append_of_takesAll r _ h, ih (r.after piece)]
      rfl
    | false =>
      obtain ⟨htaken, htakes⟩ := append_of_not_takesAll r pieces.flatten h
      rw [htaken, htakes]
      rfl

end Reader

namespace StepSeries

theorem flatten_encode (pieces : List String) :
    (pieces.map fun piece => Utf8.encode piece.toList).flatten =
      Utf8.encode (pieces.flatMap String.toList) := by
  induction pieces with
  | nil => rfl
  | cons piece pieces ih =>
    rw [List.map_cons, List.flatten_cons, List.flatMap_cons, Utf8.encode_append, ih]

/-- The pieces put together are the echo. -/
theorem flatten_echoPieces (s : StepSeries) : s.echoPieces.flatten = Utf8.encode s.echo.toList := by
  have hline : ∀ values, (line values).toList = (linePieces values).flatMap String.toList := by
    intro values
    simp [line, linePieces]
  unfold echoPieces echo
  rw [flatten_encode, String.toList_join, List.flatMap_map, List.flatMap_assoc]
  simp only [hline]

end StepSeries

/-! ## Drawing -/

namespace StepRun

theorem isName_figure : Path.IsName "step_series.png" := by
  refine ⟨?_, ?_, ?_, ?_⟩ <;> decide

theorem endsIn_figurePath (s : Settings) : Path.EndsIn (figurePath s) "step_series.png" :=
  Path.endsIn_join s.figuresFolder isName_figure

section

variable {renderer : Renderer} {s : Settings} {path : String} {limit : Option Nat} {t : Tree}
  {series : StepSeries}

theorem run_of_load_error {f : Failure} (h : StepSeries.load path t = .error f) :
    run s path limit t renderer = ⟨⟨t, []⟩, [], .error f⟩ := by
  unfold run
  rw [h]

/-- A run over a series whose echo is taken whole. -/
theorem run_of_takesAll (renderer : Renderer) (s : Settings)
    (h : StepSeries.load path t = .ok series)
    (htakes : (Reader.mk limit).takesAll (Utf8.encode series.echo.toList) = true) :
    let drawn := Action.performAll renderer ⟨t, [.loadedSteps series.steps series.particles path]⟩
      (actions s (drawingOf renderer s series))
    run s path limit t renderer =
      ⟨drawn.1, Utf8.encode series.echo.toList, drawn.2.map fun _ => figurePath s⟩ := by
  have hover := (Reader.mk limit).handOver_eq series.echoPieces
  rw [StepSeries.flatten_echoPieces, htakes, Reader.taken_of_takesAll htakes] at hover
  unfold run
  rw [h]
  dsimp only
  rw [hover]
  rfl

/-- A run over a series whose echo is not taken whole. -/
theorem run_of_not_takesAll (h : StepSeries.load path t = .ok series)
    (htakes : (Reader.mk limit).takesAll (Utf8.encode series.echo.toList) = false) :
    run s path limit t renderer =
      ⟨⟨t, [.loadedSteps series.steps series.particles path]⟩,
        (Reader.mk limit).taken (Utf8.encode series.echo.toList),
        .error ⟨[.echoSeries], .io .brokenPipe, none⟩⟩ := by
  have hover := (Reader.mk limit).handOver_eq series.echoPieces
  rw [StepSeries.flatten_echoPieces, htakes] at hover
  unfold run
  rw [h]
  dsimp only
  rw [hover]
  rfl

end

end StepRun
end Beamline
