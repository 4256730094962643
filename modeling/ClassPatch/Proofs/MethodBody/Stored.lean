import Mathlib
import ClassPatch.Proofs.MethodBody.Edited

/-!
# Edited bodies read again

What an edited body is stored as can be decoded again. All places in the new tables are places
of the old code that were moved, and so lead to instructions as those did; and branches lead to
such places, or past the jump of a widened branch.
-/

namespace ClassPatch.MethodBody

open Code

/-- The code of an edited body is decoded again, if its branches lead to instructions. -/
theorem exists_decode_of_edited {pool before after later : ConstantPool}
    {code new : CodeAttribute} {body edited : MethodBody}
    {edits : List (List (Instruction Label))} {read : List (Located Nat)}
    (hdecode : decode pool code = .ok body) (hedit : Edited body.nodes edits edited.nodes)
    (htables : edited.tables = body.tables) (hencode : edited.encode before = .ok new after)
    (hgrows : after.Grows later) (hread : disassemble new.code = .ok read) :
    ∃ again, decode later new = .ok again := by
  obtain ⟨old, found, stored, hdecoded, hstored, hlabels⟩ := decode_eq_ok hdecode
  obtain ⟨-, hyields⟩ := yields_encode _ _ _ _ hencode
  obtain ⟨result, hencoded⟩ := hyields later hgrows
  obtain ⟨moved, blocks, hscan, hmoved, -, hstop, hrelocates⟩ :=
    exists_moved_of_edited hdecoded hedit hencoded.layout
  have hnew := scan_of_disassemble hread
  rw [hencoded.code_eq] at hnew
  obtain rfl : read = blocks.flatten := Except.ok.inj (hnew.symm.trans hscan)
  rw [← hencoded.code_eq] at hstop
  rw [← htables] at hlabels
  -- what has a label is moved to an instruction or to the end
  have hplace : ∀ place, MovedFrom body.labels moved place →
      PlaceIn blocks.flatten new.code.length place := by
    rintro place ⟨source, hsource, rfl⟩
    obtain ⟨label, hlabel⟩ := Option.isSome_iff_exists.mp hsource
    rcases hdecoded.place_mem source label hlabel with rfl | ⟨l, hl, rfl⟩
    · exact .inl hstop
    · obtain ⟨edit, hp⟩ := exists_mem_zip hmoved.length_eq hl
      obtain ⟨block, hblock, hhead, -⟩ := exists_of_mem_left hmoved.blocks hp
      obtain ⟨l', hl', hoffset⟩ := Option.map_eq_some_iff.mp hhead
      exact .inr ⟨l', List.mem_flatten_of_mem hblock (List.mem_of_head? hl'), hoffset⟩
  obtain ⟨tables, hmapM, hmerge, hhas⟩ := hencoded.exists_tables hstored hlabels hrelocates
  refine exists_decode hread hmapM (fun l hl target htarget => ?_) (fun b hb place hmem => ?_)
    fun table htable place hmem => ?_
  · rcases target_of_edited hdecoded hedit hencoded.layout hrelocates.movesTo hscan l hl target
      htarget with ⟨place, label, hlabel, rfl⟩ | ⟨-, hend⟩
    · exact hplace _ (movedFrom_of_labels hlabel)
    · exact hencoded.code_eq ▸ hend
  · have hexceptions : new.exceptions.map tryBlock =
        (stored.moved moved code.code.length).exceptions :=
      congrArg CodeTables.exceptions hmerge
    rw [hexceptions] at hb
    exact hplace place (hlabels.movedFrom_exception b hb place hmem)
  · exact hplace place (hlabels.movedFrom_table (hhas table htable) place hmem)

end ClassPatch.MethodBody
