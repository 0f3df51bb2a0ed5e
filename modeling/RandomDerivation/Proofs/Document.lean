import RandomDerivation.Document
import RandomDerivation.Proofs.FileSystem
import RandomDerivation.Proofs.Json.RoundTrip
import RandomDerivation.Proofs.Text.Utf8

/-!
# Documents that are written and read again

A document goes to a file as text with line feeds, encoded as UTF-8, and comes back through the
strict decoder, the translation of line ends and the reader. Each of the three gives back what was
written: the bytes are those of the text, there is no carriage return to translate, and the text
is read as the value that it was written for.
-/

namespace RandomDerivation

namespace LineEnd

/-- A text without carriage returns keeps its line ends. -/
theorem normalize_of_not_mem {s : List Char} (h : '\r' ∉ s) : normalize s = s := by
  fun_induction normalize s with
  | case1 => rfl
  | case2 rest ih => simp at h
  | case3 rest hrest ih => simp at h
  | case4 c rest hrest hc ih => rw [ih fun hmem => h (List.mem_cons_of_mem c hmem)]

end LineEnd

namespace Document
variable {v : Json}

theorem toList_text (v : Json) : (text v).toList = Json.text 0 v ++ ['\n'] := by
  simp [text, Json.write]

/-- The bytes of a document are those of this document, whatever the name of their file. -/
theorem ofBytes_toBytes (hfree : v.isFloatFree = true) (hwritable : v.isWritable = true)
    (hdistinct : v.hasDistinctNames = true) (path : String) :
    ofBytes path (toBytes v) = .ok v := by
  have hreturn : '\r' ∉ Json.text 0 v ++ ['\n'] := by
    simp [Json.return_not_mem_text hfree 0]
  have hread := Json.read_text hfree hwritable hdistinct
  rw [ofBytes, toBytes, Utf8.decode_encode, toList_text]
  simp only [Except.mapError, bind, Except.bind]
  rw [LineEnd.normalize_of_not_mem hreturn, hread]
  rfl

theorem load_of_read (hfree : v.isFloatFree = true) (hwritable : v.isWritable = true)
    (hdistinct : v.hasDistinctNames = true) {fs : FileSystem} {path : String}
    (hread : fs.read path = .ok (toBytes v)) : load fs path = .ok v := by
  rw [load, hread]
  exact ofBytes_toBytes hfree hwritable hdistinct path

/-- A document that was written to a file is read from it again: its bytes denote it, and they are
what the file holds. -/
theorem load_of_dump (hfree : v.isFloatFree = true) (hwritable : v.isWritable = true)
    (hdistinct : v.hasDistinctNames = true) :
    (∀ path, ofBytes path (toBytes v) = .ok v) ∧
      ∀ path fs fs', dump v path fs = .ok () fs' → load fs' path = .ok v := by
  refine ⟨ofBytes_toBytes hfree hwritable hdistinct, fun path fs fs' hdump => ?_⟩
  obtain ⟨_, _, hread, _⟩ := FileSystem.write_eq_ok hdump
  exact load_of_read hfree hwritable hdistinct hread

/-- A value of what could be lost on the way: a carriage return, other separators of lines, a byte
order mark, quotes and control characters, a long number, containers with nothing in them and an
order of names. -/
def fragileValue : Json :=
  .obj [
    ("\r\n", .str "\r \u2028 \u2029 \uFEFF \x7f \x00 \x1f \" \\ \t \u00e9"),
    ("b", .arr [.arr [], .obj [], .null, .bool true]),
    ("a", .obj [("", .int (-1208925819614629174706176)), ("\u007f", .int 0)])]

theorem load_of_dump_fragileValue :
    ∃ fs', dump fragileValue "new/value.json" ⟨["", "home"], []⟩ = .ok () fs' ∧
      load fs' "new/value.json" = .ok fragileValue := by
  obtain ⟨fs', hdump⟩ :
      ∃ fs', dump fragileValue "new/value.json" ⟨["", "home"], []⟩ = .ok () fs' := ⟨_, rfl⟩
  have hload := (load_of_dump (v := fragileValue) (by decide) (by decide) (by decide)).2
  exact ⟨fs', hdump, hload _ _ _ hdump⟩

end Document

end RandomDerivation
