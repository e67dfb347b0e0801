import CodeIndex.Proofs.Json.Spacing
import CodeIndex.Proofs.Json.Stripping
import CodeIndex.Resolve.Alias

/-!
Comments in a project configuration. A configuration with comments and extra commas is stripped to
a plain one of the same tokens, so it is read as if it had been written without them.
-/
namespace CodeIndex.Resolve

open Json (decode)
open Json.Layout
open Json.Relaxed (strip)

theorem Aliases.needs_schema : Needs schema 5 := by
  have hbase : Needs (.optional .text) 1 := .optional .text
  have hpaths : Needs (.dict (.list .text)) 1 := .dict (.list .text)
  refine .record (k := 4) (List.forall_mem_singleton.mpr (.optional (.record ?_)))
  exact List.forall_mem_cons.mpr ⟨hbase, List.forall_mem_singleton.mpr hpaths⟩

/-- Stripping keeps the tokens of a document apart from its extra commas, and so the value that it
is read as. A document without comments and extra commas stays as it is. -/
theorem strip_document (d : Document) :
    (∀ text : String, Relaxed (d.tokens true) text.toList →
      Strict (d.tokens false) (strip text).toList ∧
        ∀ plain : String, Strict (d.tokens false) plain.toList →
          (decode Aliases.schema (strip text)).toOption =
            (decode Aliases.schema plain).toOption) ∧
      ∀ plain : String, Strict (d.tokens false) plain.toList → strip plain = plain := by
  refine ⟨fun text htext => ?_, fun plain hplain => strip_strict hplain⟩
  have hstrip : Strict (d.tokens false) (strip text).toList := strip_relaxed htext
  have hseparated : Separated (d.tokens false) := by
    have htokens : Separated (d.tokens false ++ []) := d.separated_tokens false trivial rfl
    rwa [List.append_nil] at htokens
  exact ⟨hstrip, fun plain hplain =>
    decode_toOption Aliases.needs_schema (by decide) hseparated hstrip hplain⟩

/-- A comma in a comment and comment marks in a string do not count. -/
theorem strip_document_commented :
    ∃ (d : Document) (text plain : String), text = "[ \"a//\\\"\", /* , */ 1,] // ]" ∧
      plain = "[\"a//\\\"\", 1 ]" ∧ Strict (d.tokens false) (strip text).toList ∧
      (decode Aliases.schema (strip text)).toOption = (decode Aliases.schema plain).toOption ∧
      strip plain = plain := by
  have hquoted : QuotedRest ['a', '/', '/', '\\', '"', '"'] :=
    .plain (by decide) (by decide) (by decide) <| .plain (by decide) (by decide) (by decide) <|
      .plain (by decide) (by decide) (by decide) <| .escape (by decide) .close
  have hone : IsInteger ['1'] := .inr ⟨⟨by decide, List.forall_mem_singleton.mpr rfl⟩, by decide⟩
  let one : Numeral := ⟨false, ['1'], [], [], hone, .inl rfl, .inl rfl⟩
  let d : Document := .list [.scalar (.text ⟨_, hquoted⟩), .scalar (.number one)] true
  have htext : Relaxed (d.tokens true) "[ \"a//\\\"\", /* , */ 1,] // ]".toList := by
    have hbody : ¬ ['*', '/'] <:+: [' ', ',', ' '] := by decide
    have hcomment : Gap false [' ', '/', '*', ' ', ',', ' ', '*', '/', ' '] :=
      .space rfl (.block hbody (.space rfl .nil))
    have hend : Gap true [' ', '/', '/', ' ', ']'] := .space rfl (.last (by decide))
    exact .token (g := []) .nil <| .token (g := [' ']) (.space rfl .nil) <|
      .token (g := []) .nil <| .token hcomment <| .token (g := []) .nil <|
        .token (g := []) .nil <| .done hend
  have hplain : Strict (d.tokens false) "[\"a//\\\"\", 1 ]".toList := by
    have hspace : Blank [' '] := List.forall_mem_singleton.mpr rfl
    exact .token (g := []) nofun <| .token (g := []) nofun <| .token (g := []) nofun <|
      .token (g := [' ']) hspace <| .token (g := [' ']) hspace <| .done nofun
  have hstrip := (strip_document d).1 _ htext
  exact ⟨d, _, _, rfl, rfl, hstrip.1, hstrip.2 _ hplain, (strip_document d).2 _ hplain⟩

end CodeIndex.Resolve
