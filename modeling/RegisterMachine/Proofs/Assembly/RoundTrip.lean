import RegisterMachine.Proofs.Assembly.Program
import RegisterMachine.Proofs.Item.Rendering

/-!
# Round trips

Assembling undoes rendering: every text that says a list of items assembles to the image of the items
(`assemble_of_rendering`), whatever spellings and gaps the text has.
-/

namespace RegisterMachine

open Assembling

theorem Chunk.plain_of_rendering {items : List Item} {source : String} (h : Rendering items source.toList) :
    (ofSource source).plain = items := (ofSource_of_rendering h).1

private theorem run_load_of_forM {source : String} {before after : Assembly}
    (h : (forM [source] load).run before = .ok () after) : (load source).run before = .ok () after := by
  rw [List.forM_cons, List.forM_nil] at h
  cases hload : (load source).run before with
  | ok value last =>
    rw [run_bind_of_ok hload] at h
    cases h
    rfl
  | error error last =>
    rw [run_bind_of_error hload] at h
    cases h

/-- Any text that says items with distinct labels, of which those referred to are defined, assembles to their image,
with the offset of its label in place of each reference. -/
theorem assemble_of_rendering {items : List Item} {source : String} (hsource : Rendering items source.toList)
    (hnodup : (Image.definitions items).Nodup)
    (hdefined : ∀ name ∈ Image.references items, name ∈ Image.definitions items)
    (hsize : Image.size items < 2147483648) :
    ∃ program, assemble source = .ok program ∧ program.toList = Image.bytes 0 items := by
  have hjoined : Chunk.joined [source] = items := by
    rw [Chunk.joined_cons, Chunk.joined_nil, List.append_nil, Chunk.plain_of_rendering hsource]
  have hread : ∀ other ∈ [source], (Chunk.ofSource other).failure = none := by
    rw [List.forall_mem_singleton]
    exact (Chunk.ofSource_of_rendering hsource).2
  obtain ⟨assembly, program, last, hloads, hemit, hprogram⟩ :=
    exists_program 0 (by decide) hread (by rwa [hjoined]) (by rwa [hjoined]) (by rwa [hjoined])
      (by rw [hjoined]; omega)
  refine ⟨program, ?_, by rw [hprogram, hjoined]⟩
  have hrun : (do load source; emit : Assembling (Array UInt8)).run (Assembly.empty 0) = .ok program last := by
    rw [run_bind_of_ok (run_load_of_forM hloads)]
    exact hemit
  rw [assemble, hrun]

/-- A label may have the name of a directive, and comments may touch words. -/
theorem assemble_of_rendering_reserved_name : ∃ program,
    assemble " Label hex#\n007 XoR//\n iNt hex hex AbcD int -2 #" = .ok program ∧
      program.toList = [7, 3, 0, 0, 0, 0, 171, 205, 254, 255, 255, 255] := by
  have hsource : Rendering [.label "hex", .byte 7, .opcode .xor, .reference "hex", .bytes [171, 205], .word (-2)]
      " Label hex#\n007 XoR//\n iNt hex hex AbcD int -2 #".toList := by
    have htext : " Label hex#\n007 XoR//\n iNt hex hex AbcD int -2 #".toList =
        [' '] ++ ("Label".toList ++ ([' '] ++ ("hex".toList ++ (['#', '\n'] ++ ("007".toList ++ ([' '] ++
          ("XoR".toList ++ (['/', '/', '\n', ' '] ++ ("iNt".toList ++ ([' '] ++ ("hex".toList ++ ([' '] ++
            ("hex".toList ++ ([' '] ++ ("AbcD".toList ++ ([' '] ++ ("int".toList ++ ([' '] ++
              ("-2".toList ++ ([' '] ++ ['#'])))))))))))))))))))) := by decide
    have hblank : Gap [' '] := .blank (by decide) .nil
    have hhash : Gap ['#', '\n'] := .comment ⟨['#'], [], Or.inl rfl, by decide, rfl⟩ .nil
    have hslashes : Gap ['/', '/', '\n', ' '] := .comment ⟨['/', '/'], [], Or.inr rfl, by decide, rfl⟩ hblank
    have hlast : LastGap ([' '] ++ ['#']) := .comment hblank ⟨['#'], [], Or.inl rfl, by decide, rfl⟩
    refine ⟨["Label".toList, "hex".toList, "007".toList, "XoR".toList, "iNt".toList, "hex".toList, "hex".toList,
      "AbcD".toList, "int".toList, "-2".toList], ?_, ?_⟩
    · have hname : IsName "hex".toList := by decide
      refine .cons (.label hname (by decide)) (.cons (.byte 7 2) (.cons (.opcode .xor (by decide))
        (.cons (.reference hname (by decide))
          (.cons (.bytes (by decide) (by decide) (by decide)) (.cons (.word (-2) (by decide)) .nil)))))
    · rw [htext]
      exact .word hblank (.word hblank (by decide) (.word hhash (by decide) (.word hblank (by decide)
        (.word hslashes (by decide) (.word hblank (by decide) (.word hblank (by decide) (.word hblank (by decide)
          (.word hblank (by decide) (.word hblank (by decide) (.last hlast))))))))))
  obtain ⟨program, hrun, hbytes⟩ := assemble_of_rendering hsource (by decide) (by decide) (by decide)
  exact ⟨program, hrun, hbytes.trans (by decide)⟩

end RegisterMachine
