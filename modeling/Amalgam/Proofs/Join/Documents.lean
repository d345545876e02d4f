import Amalgam.Proofs.Document
import Amalgam.Proofs.Join.Sources
import Amalgam.Proofs.Selection.Output

/-!
# Documents of joined sources

What a join makes of the lines that are kept of its sources. The texts of the
sources are appended one after the other, so the document is known in closed
form (`result_concatenation_eq_ok_iff`):

* `lines_joinSources`: the lines of the document, from the lines that are kept
  of each source;
* `processFile_document`: a document is a source without directives, which
  gives itself, but for its last `\n`;
* `joinSources_documents`: documents of consecutive groups of sources, joined
  in turn, give the document of all the sources.
-/

namespace Amalgam.Join

open Assembler (concatenation)
open Document (assemble bodies parts)

variable {fs fs' : FileSystem} {symbols table : Symbols} {strict mode : Bool} {path : Path}
  {paths : List Path} {texts : List String} {kept : List (List String)} {document : String}

/-! ## Kept lines -/

/-- The lines that are kept of the sources, each list at the place of its
source. -/
def Kept (fs : FileSystem) (symbols : Symbols) (strict : Bool) (paths : List Path)
    (kept : List (List String)) : Prop :=
  List.Forall₂ (fun path lines => ∃ source, fs.readText path = .ok source ∧
    (Selection.select strict symbols (Text.lines source)).result = .ok lines) paths kept

/-- Sources of which lines are kept give these lines, put together. -/
theorem Kept.processed (h : Kept fs symbols strict paths kept) :
    Processed fs symbols strict paths (kept.map Text.unlines) := by
  refine List.forall₂_map_right_iff.mpr (h.imp ?_)
  rintro path lines ⟨source, hread, hresult⟩
  exact processFile_eq_ok_iff.mpr ⟨source, hread,
    Selection.Run.text_eq_ok_iff.mpr ⟨lines, hresult, rfl⟩⟩

theorem Processed.exists_kept (h : Processed fs symbols strict paths texts) :
    ∃ kept, Kept fs symbols strict paths kept ∧ texts = kept.map Text.unlines := by
  induction h with
  | nil => exact ⟨[], .nil, rfl⟩
  | cons hfirst _ ih =>
    obtain ⟨kept, hkept, rfl⟩ := ih
    obtain ⟨source, hread, htext⟩ := processFile_eq_ok_iff.mp hfirst
    obtain ⟨lines, hresult, rfl⟩ := Selection.Run.text_eq_ok_iff.mp htext
    exact ⟨lines :: kept, .cons ⟨source, hread, hresult⟩ hkept, rfl⟩

/-- The lines that are kept hold no terminator and no directive. -/
theorem Kept.singleLine (h : Kept fs symbols strict paths kept) :
    ∀ lines ∈ kept, ∀ line ∈ lines, Text.SingleLine line ∧ (Directive.ofLine line).isText := by
  induction h with
  | nil => exact fun _ hm => absurd hm List.not_mem_nil
  | cons hfirst _ ih =>
    obtain ⟨source, -, hresult⟩ := hfirst
    rintro lines (_ | ⟨_, hm⟩)
    · exact Selection.singleLine_of_mem_kept hresult
    · exact ih lines hm

/-! ## The document in closed form -/

theorem concatenation_add (document : String) (path : Path) (text : String) :
    concatenation.add document path text = Document.append document text := by
  rw [concatenation]

/-- The document of sources is that of the bodies of their texts. -/
theorem document_concatenation (sources : List (Path × String)) :
    concatenation.document sources = assemble (bodies (sources.map Prod.snd)) := by
  have hreceive : concatenation.receive "" sources = (sources.map Prod.snd).foldl Document.append "" := by
    simp only [Assembler.receive, concatenation_add, List.foldl_map]
  exact hreceive.trans (Document.foldl_append [] _)

/-- A join of texts gives the document of their bodies. -/
theorem result_concatenation_eq_ok_iff :
    (joinSources fs symbols strict concatenation paths).result concatenation = .ok document ↔
      ∃ texts, Processed fs symbols strict paths texts ∧ document = assemble (bodies texts) := by
  rw [result_joinSources_eq_ok_iff]
  refine exists_congr fun texts => and_congr_right fun hp => ?_
  have hdoc : concatenation.finish (concatenation.receive concatenation.start (paths.zip texts)) =
      assemble (bodies texts) := by
    have hall := document_concatenation (paths.zip texts)
    rwa [List.map_snd_zip hp.length_eq.ge] at hall
  rw [hdoc, eq_comm]

/-- The document of the lines that are kept. -/
theorem Kept.result_concatenation (h : Kept fs symbols strict paths kept) :
    (joinSources fs symbols strict concatenation paths).result concatenation =
      .ok (assemble ((parts kept).map Text.unlines)) :=
  result_concatenation_eq_ok_iff.mpr ⟨_, h.processed, by
    rw [Document.bodies_map_unlines fun lines hm line hline => (h.singleLine lines hm line hline).1]⟩

/-! ## The lines of the document -/

/-- The document of some sources, line by line. If all lines that are kept are
blank, it is empty. Otherwise it ends in one `\n` and holds no `\r`, and its
lines are those of the parts, with an empty line between each two of them; so
the lines of the sources that take part in it, but for empty ones, are all
there, once and in their order. -/
theorem lines_joinSources (h : Kept fs symbols strict paths kept) :
    ∃ document, (joinSources fs symbols strict concatenation paths).result concatenation = .ok document ∧
      ((∀ lines ∈ kept, ∀ line ∈ lines, Text.isBlank line) → document = "") ∧
      ((∃ lines ∈ kept, ∃ line ∈ lines, ¬Text.isBlank line) →
        (∃ text, document = text ++ "\n" ∧ text.toList.getLast? ≠ some '\n') ∧
        '\r' ∉ document.toList ∧
        Text.lines document = [""].intercalate (parts kept) ∧
        (Text.lines document).filter (· ≠ "") =
          (kept.filter fun lines => lines.any fun line => !Text.isBlank line).flatten.filter
            (· ≠ "")) := by
  have single : ∀ lines ∈ kept, ∀ line ∈ lines, Text.SingleLine line :=
    fun lines hm line hline => (h.singleLine lines hm line hline).1
  have hne : ∀ part ∈ parts kept, part ≠ [] := fun part hm => Document.ne_nil_of_mem_parts hm
  have hlines : Text.lines (assemble ((parts kept).map Text.unlines)) = [""].intercalate (parts kept) :=
    Document.lines_assemble hne (Document.singleLine_of_mem_parts single)
  refine ⟨_, h.result_concatenation, fun hblank => ?_, ?_⟩
  · rw [Document.parts_eq_nil_iff.mpr hblank]
    rfl
  · rintro ⟨lines, hm, line, hline, hnot⟩
    have hparts : (parts kept).map Text.unlines ≠ [] := by
      intro hnil
      exact hnot (Document.parts_eq_nil_iff.mp (List.map_eq_nil_iff.mp hnil) lines hm line hline)
    refine ⟨Document.exists_assemble_eq hparts fun body hbody => ?_,
      Document.return_not_mem_assemble hne (Document.singleLine_of_mem_parts single), hlines, ?_⟩
    · rw [← Document.bodies_map_unlines single] at hbody
      exact Document.isBody_of_mem_bodies hbody
    · rw [hlines, Document.filter_intercalate, Document.filter_flatten_parts]

/-- Three sources: one with a block and blank lines, a blank one, and one that
ends in an empty line. -/
def mixedSources : FileSystem :=
  FileSystem.empty []
    |>.create ["a.cs"] (.file "\r\n#if A\r\nx\r\n \r\n\r\n#endif".toUTF8)
    |>.create ["b.cs"] (.file " \n".toUTF8)
    |>.create ["c.cs"] (.file "y\n\n".toUTF8)

/-- The blank source leaves no trace, blank lines stay, and empty lines at the
ends do not. -/
theorem lines_joinSources_mixed :
    Kept mixedSources (Symbols.ofNames ["A"]) true [⟨"a.cs"⟩, ⟨"b.cs"⟩, ⟨"c.cs"⟩]
      [["", "x", " ", ""], [" "], ["y", ""]] ∧
    ∃ document, (joinSources mixedSources (Symbols.ofNames ["A"]) true concatenation
        [⟨"a.cs"⟩, ⟨"b.cs"⟩, ⟨"c.cs"⟩]).result concatenation = .ok document ∧
      Text.lines document = ["", "x", " ", "", "y"] := by
  have hkept : Kept mixedSources (Symbols.ofNames ["A"]) true [⟨"a.cs"⟩, ⟨"b.cs"⟩, ⟨"c.cs"⟩]
      [["", "x", " ", ""], [" "], ["y", ""]] :=
    .cons ⟨"\r\n#if A\r\nx\r\n \r\n\r\n#endif", by decide +kernel, by decide +kernel⟩
      (.cons ⟨" \n", by decide +kernel, by decide +kernel⟩
        (.cons ⟨"y\n\n", by decide +kernel, by decide +kernel⟩ .nil))
  obtain ⟨document, hresult, -, hlines⟩ := lines_joinSources hkept
  refine ⟨hkept, document, hresult, ?_⟩
  have hx : ∃ lines ∈ [["", "x", " ", ""], [" "], ["y", ""]], ∃ line ∈ lines, ¬Text.isBlank line :=
    ⟨["", "x", " ", ""], by decide, "x", by decide, by decide⟩
  exact (hlines hx).2.2.1

/-! ## Documents as sources -/

/-- A document has no directives, and holds no `\r`. -/
theorem isText_of_document
    (h : (joinSources fs symbols strict concatenation paths).result concatenation = .ok document) :
    '\r' ∉ document.toList ∧ ∀ line ∈ Text.lines document, (Directive.ofLine line).isText := by
  obtain ⟨texts, hp, -⟩ := result_concatenation_eq_ok_iff.mp h
  obtain ⟨kept, hkept, -⟩ := hp.exists_kept
  have single : ∀ lines ∈ kept, ∀ line ∈ lines, Text.SingleLine line :=
    fun lines hm line hline => (hkept.singleLine lines hm line hline).1
  have hne : ∀ part ∈ parts kept, part ≠ [] := fun part hm => Document.ne_nil_of_mem_parts hm
  rw [hkept.result_concatenation, Except.ok.injEq] at h
  subst h
  refine ⟨Document.return_not_mem_assemble hne (Document.singleLine_of_mem_parts single), ?_⟩
  rw [Document.lines_assemble hne (Document.singleLine_of_mem_parts single)]
  intro line hline
  by_cases hempty : line = ""
  · subst hempty
    decide
  · have hm : line ∈ ([""].intercalate (parts kept)).filter (· ≠ "") := by simpa [hempty] using hline
    rw [Document.filter_intercalate, Document.filter_flatten_parts] at hm
    obtain ⟨lines, hlines, hm⟩ := List.mem_flatten.mp (List.mem_of_mem_filter hm)
    exact (hkept.singleLine lines (List.mem_of_mem_filter hlines) line hm).2

/-- A document, taken as a source, gives itself but for its last `\n`, whatever
the table is. -/
theorem processFile_document
    (h : (joinSources fs symbols strict concatenation paths).result concatenation = .ok document)
    (hread : fs'.readText path = .ok document) (table : Symbols) (mode : Bool) :
    (processFile fs' table mode path).result = .ok (Text.chomp document) := by
  obtain ⟨hr, ht⟩ := isText_of_document h
  exact processFile_eq_ok_iff.mpr ⟨document, hread, Selection.select_lines_text mode table hr ht⟩

/-- The groups give the documents, each the one at its place. -/
def Grouped (fs : FileSystem) (symbols : Symbols) (strict : Bool) (groups : List (List Path))
    (documents : List String) : Prop :=
  List.Forall₂ (fun group document =>
    (joinSources fs symbols strict concatenation group).result concatenation = .ok document)
    groups documents

/-- Groups that give documents are processed source by source, and each
document is that of the bodies of its group. -/
theorem Grouped.exists_bodies {groups : List (List Path)} {documents : List String}
    (h : Grouped fs symbols strict groups documents) :
    ∃ contents : List (List String), Processed fs symbols strict groups.flatten contents.flatten ∧
      documents = contents.map fun texts => assemble (bodies texts) := by
  induction h with
  | nil => exact ⟨[], .nil, rfl⟩
  | cons hfirst _ ih =>
    obtain ⟨texts, hp, hd⟩ := result_concatenation_eq_ok_iff.mp hfirst
    obtain ⟨contents, hrest, rfl⟩ := ih
    refine ⟨texts :: contents, ?_, by rw [hd]; rfl⟩
    rw [List.flatten_cons, List.flatten_cons]
    exact List.rel_append hp hrest

/-- Files that hold the documents of groups are processed, and give these
documents. -/
theorem Grouped.processed {groups : List (List Path)} {documents : List String}
    (h : Grouped fs symbols strict groups documents)
    (hread : List.Forall₂ (fun path document => fs'.readText path = .ok document) paths documents)
    (table : Symbols) (mode : Bool) : Processed fs' table mode paths (documents.map Text.chomp) := by
  induction hread generalizing groups with
  | nil => exact .nil
  | cons hfirst _ ih =>
    cases h with
    | cons hgroup hrest => exact .cons (processFile_document hgroup hfirst table mode) (ih hrest)

/-- Documents of consecutive groups of sources, joined in turn under any table
and in either mode, give the document of all the sources; in particular a
document that is joined by itself stays as it is. -/
theorem joinSources_documents (fs fs' : FileSystem) (symbols table : Symbols) (strict mode : Bool) :
    (∀ groups documents paths, Grouped fs symbols strict groups documents →
      List.Forall₂ (fun path document => fs'.readText path = .ok document) paths documents →
      ∃ document,
        (joinSources fs symbols strict concatenation groups.flatten).result concatenation =
          .ok document ∧
        (joinSources fs' table mode concatenation paths).result concatenation = .ok document) ∧
    (∀ group document path,
      (joinSources fs symbols strict concatenation group).result concatenation = .ok document →
      fs'.readText path = .ok document →
      (joinSources fs' table mode concatenation [path]).result concatenation = .ok document) := by
  have regroup : ∀ groups documents paths, Grouped fs symbols strict groups documents →
      List.Forall₂ (fun path document => fs'.readText path = .ok document) paths documents →
      ∃ document,
        (joinSources fs symbols strict concatenation groups.flatten).result concatenation =
          .ok document ∧
        (joinSources fs' table mode concatenation paths).result concatenation = .ok document := by
    intro groups documents paths hgroups hread
    have hagain := hgroups.processed hread table mode
    obtain ⟨contents, hp, rfl⟩ := hgroups.exists_bodies
    refine ⟨assemble (bodies contents.flatten), result_concatenation_eq_ok_iff.mpr ⟨_, hp, rfl⟩,
      result_concatenation_eq_ok_iff.mpr ⟨_, hagain, ?_⟩⟩
    have hbodies : ∀ group ∈ contents.map bodies, ∀ body ∈ group, Document.IsBody body := by
      intro group hm body hbody
      obtain ⟨texts, -, rfl⟩ := List.mem_map.mp hm
      exact Document.isBody_of_mem_bodies hbody
    rw [Document.bodies_flatten, ← Document.assemble_bodies_chomp hbodies]
    simp only [List.map_map, Function.comp_def]
  refine ⟨regroup, fun group document path hgroup hread => ?_⟩
  obtain ⟨document', hall, hagain⟩ := regroup [group] [document] [path]
    (.cons hgroup .nil) (.cons hread .nil)
  rw [List.flatten_singleton, hgroup] at hall
  rw [hagain, ← hall]

/-- The documents of three groups of these sources: the first two, none, and
the last. -/
def joinedSources : FileSystem :=
  FileSystem.empty []
    |>.create ["ab.cs"] (.file "\nx\n \n".toUTF8)
    |>.create ["b.cs"] (.file "".toUTF8)
    |>.create ["c.cs"] (.file "y\n".toUTF8)

/-- The three documents, joined without the symbol that the first one
needed. -/
theorem joinSources_documents_mixed :
    (joinSources joinedSources ∅ false concatenation [⟨"ab.cs"⟩, ⟨"b.cs"⟩, ⟨"c.cs"⟩]).result
      concatenation = .ok "\nx\n \n\ny\n" ∧
    (joinSources joinedSources ∅ true concatenation [⟨"ab.cs"⟩]).result concatenation = .ok "\nx\n \n" := by
  have hab : (joinSources mixedSources (Symbols.ofNames ["A"]) true concatenation
      [⟨"a.cs"⟩, ⟨"b.cs"⟩]).result concatenation = .ok "\nx\n \n" := by decide +kernel
  have hnone : (joinSources mixedSources (Symbols.ofNames ["A"]) true concatenation
      []).result concatenation = .ok "" := by decide +kernel
  have hc : (joinSources mixedSources (Symbols.ofNames ["A"]) true concatenation
      [⟨"c.cs"⟩]).result concatenation = .ok "y\n" := by decide +kernel
  have hread : joinedSources.readText ⟨"ab.cs"⟩ = .ok "\nx\n \n" := by decide +kernel
  refine ⟨?_, (joinSources_documents mixedSources joinedSources (Symbols.ofNames ["A"]) ∅ true true).2
    _ _ _ hab hread⟩
  obtain ⟨document, hall, hagain⟩ :=
    (joinSources_documents mixedSources joinedSources (Symbols.ofNames ["A"]) ∅ true false).1
      [[⟨"a.cs"⟩, ⟨"b.cs"⟩], [], [⟨"c.cs"⟩]] ["\nx\n \n", "", "y\n"]
      [⟨"ab.cs"⟩, ⟨"b.cs"⟩, ⟨"c.cs"⟩] (.cons hab (.cons hnone (.cons hc .nil)))
      (.cons hread (.cons (by decide +kernel) (.cons (by decide +kernel) .nil)))
  have hdocument : (joinSources mixedSources (Symbols.ofNames ["A"]) true concatenation
      [⟨"a.cs"⟩, ⟨"b.cs"⟩, ⟨"c.cs"⟩]).result concatenation = .ok "\nx\n \n\ny\n" := by decide +kernel
  exact hagain.trans (hall.symm.trans hdocument)

end Amalgam.Join
