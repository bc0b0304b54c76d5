import ConcreteSyntax.Check
import ConcreteSyntax.Proofs.Pairing.Notes
import ConcreteSyntax.Proofs.Text.Lines

/-!
# Checks

Each note of a checked source file is located where its marker stands in the text as written,
before any line ending was changed (`SourceFile.notes_located`).
-/

namespace ConcreteSyntax

namespace SourceFile

/-- A source file locates each place between its characters. -/
theorem location_eq (file : SourceFile) {place : Nat}
    (h : Text.isBoundary file.text place = true) :
    file.location place = .ok (file.path ++ ":" ++ toString (Text.lineAt file.text place) ++ ":"
      ++ toString (Text.columnAt file.text place)) := by
  obtain ⟨line, column, hplace, hline, hcolumn⟩ := LineIndex.lineColumn?_ofText h
  simp only [location, hplace, hline, hcolumn]

/-- The notes of a source file are those of pairing its text. -/
theorem check_eq {path : String} {language : Language}
    (h : Path.language path = .ok language) (text : List Char) :
    check ⟨path, language.prepare text⟩ =
      (language.grammar.pair (.ofText (language.prepare text))).2.2 := by
  simp only [check, h, Language.parse, Language.prepare_prepare]
  rfl

/-- A file of a known language has its text prepared.  Each of its notes marks a marker whose
characters stand in the text as written as well, and is located at the line and column that the
first of them has there: in the text as written, where each `\r\n`, each `\n` and each `\r` that
stands alone ends a line. -/
theorem notes_located {path : String} {language : Language}
    (hlanguage : Path.language path = .ok language) (text : List Char) :
    ∃ file, ofPath path text = .ok file ∧ ∀ note ∈ file.check,
      ∃ before marker after, text = before ++ (marker ++ after) ∧ marker ≠ []
        ∧ file.text =
            language.prepare before ++ (language.prepare marker ++ language.prepare after)
        ∧ note.Marks ⟨Text.byteLength (language.prepare before), language.prepare marker⟩
        ∧ file.location note.range.start =
            .ok (path ++ ":" ++ toString (Text.lineAt text (Text.byteLength before)) ++ ":"
              ++ toString (Text.columnAt text (Text.byteLength before))) := by
  refine ⟨⟨path, language.prepare text⟩, by rw [ofPath, hlanguage]; rfl, fun note hnote => ?_⟩
  rw [check_eq hlanguage] at hnote
  obtain ⟨⟨start, chars⟩, ⟨left, right, htext, rfl⟩, hne, hmarks⟩ :=
    language.grammar.marks_pair _ note hnote
  obtain ⟨before, rest, rfl, rfl, hrest, hline, hcolumn⟩ :=
    Language.exists_of_prepare_eq_append htext
  obtain ⟨marker, after, rfl, rfl, rfl, -, -⟩ := Language.exists_of_prepare_eq_append hrest
  refine ⟨before, marker, after, rfl, ?_, htext, hmarks, ?_⟩
  · rintro rfl
    exact hne language.prepare_nil
  · have htext' : language.prepare (before ++ (marker ++ after)) =
        language.prepare before ++ (language.prepare marker ++ language.prepare after) := htext
    have hplace := Text.isBoundary_byteLength_append (language.prepare before)
      (language.prepare marker ++ language.prepare after)
    rw [← htext'] at hplace hline hcolumn
    rw [hmarks.range, ← hline, ← hcolumn]
    exact location_eq ⟨path, _⟩ hplace

/-- A closing brace that closes nothing, behind two lines that end differently. -/
theorem notes_located_brace :
    let text := "a;\r\nb;\r\x7d".toList
    Path.language "x.c" = .ok .c
      ∧ (∃ file, ofPath "x.c" text = .ok file ∧ ∀ note ∈ file.check,
        ∃ before marker after, text = before ++ (marker ++ after) ∧ marker ≠ []
          ∧ file.text =
              Language.c.prepare before ++ (Language.c.prepare marker ++ Language.c.prepare after)
          ∧ note.Marks ⟨Text.byteLength (Language.c.prepare before), Language.c.prepare marker⟩
          ∧ file.location note.range.start =
              .ok ("x.c" ++ ":" ++ toString (Text.lineAt text (Text.byteLength before)) ++ ":"
                ++ toString (Text.columnAt text (Text.byteLength before))))
      ∧ (check ⟨"x.c", Language.c.prepare text⟩).map
          (fun note => location ⟨"x.c", Language.c.prepare text⟩ note.range.start) =
            [.ok "x.c:3:1"] :=
  have hlanguage : Path.language "x.c" = .ok .c := by decide +kernel
  ⟨hlanguage, notes_located hlanguage _, by decide +kernel⟩

end SourceFile

end ConcreteSyntax
