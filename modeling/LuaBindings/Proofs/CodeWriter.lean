import LuaBindings.CodeWriter

/-!
# What a writer writes

A function that writes to a writer is told by its lines alone: they are indented as deep as the
writer stands, and the blocks that are open stay open (`CodeWriter.Appends`).
-/

set_option autoImplicit false

namespace LuaBindings.CodeWriter

def indented (depth : Nat) (text : String) : String :=
  if text.isEmpty then "" else indentation depth ++ text

theorem indented_zero (text : String) : indented 0 text = text := by
  rw [indented]
  split
  · rename_i hempty
    exact (String.isEmpty_iff.1 hempty).symm
  · exact String.empty_append

theorem isEmpty_indented (depth : Nat) (text : String) :
    (indented depth text).isEmpty = text.isEmpty := by
  rw [indented, Bool.eq_iff_iff, String.isEmpty_iff]
  split
  · rename_i hempty
    exact iff_of_true rfl hempty
  · rw [String.append_eq_empty_iff, ← String.isEmpty_iff (s := text)]
    exact and_iff_right_of_imp fun hempty => absurd hempty ‹_›

theorem indented_indented (outer inner : Nat) (text : String) :
    indented outer (indented inner text) = indented (outer + inner) text := by
  rw [indented, isEmpty_indented, indented, indented]
  cases text.isEmpty with
  | true => rfl
  | false =>
    rw [if_neg (by decide), if_neg (by decide), if_neg (by decide), ← String.append_assoc]
    congr 1
    simp [indentation, ← String.toList_inj, Nat.mul_add]

def Appends (f : CodeWriter → CodeWriter) (texts : List String) : Prop :=
  ∀ w, f w = { w with written := w.written ++ (texts.map (indented w.depth)).toArray }

variable {f g : CodeWriter → CodeWriter} {texts more : List String}

theorem appends_nil : Appends (fun w => w) [] := fun w => by simp

theorem appends_line (text : String) : Appends (·.line text) [text] := fun w => by
  simp [line, indented]

theorem Appends.comp (hf : Appends f texts) (hg : Appends g more) :
    Appends (fun w => g (f w)) (texts ++ more) := fun w => by
  dsimp only
  rw [hg (f w), hf w]
  simp

theorem appends_lines (texts : List String) : Appends (·.lines texts) texts := by
  unfold lines
  induction texts with
  | nil => exact appends_nil
  | cons text texts ih => exact (appends_line text).comp ih

theorem appends_foldl {α : Type} {f : CodeWriter → α → CodeWriter} {texts : α → List String}
    (h : ∀ a, Appends (f · a) (texts a)) (list : List α) :
    Appends (fun w => list.foldl f w) (list.flatMap texts) := by
  induction list with
  | nil => exact appends_nil
  | cons a list ih => exact (h a).comp ih

def blockLines (header footer : String) (texts : List String) : List String :=
  header :: texts.map (indented 1) ++ [footer]

theorem appends_block (h : Appends f texts) (header footer : String) :
    Appends (·.block header footer f) (blockLines header footer texts) := fun w => by
  have hdeeper : (texts.map (indented 1)).map (indented w.depth) =
      texts.map (indented (w.depth + 1)) := by
    rw [List.map_map]
    exact List.map_congr_left fun text _ => indented_indented w.depth 1 text
  have hheader := appends_line header w
  have hfooter := appends_line footer
    { w with written := (w.line header).written ++ (texts.map (indented (w.depth + 1))).toArray }
  dsimp only at hheader hfooter ⊢
  rw [block, h, leave]
  simp only [enter, indent, dedent, hheader, Nat.add_sub_cancel] at hfooter ⊢
  rw [hfooter, blockLines, List.map_append, List.map_cons (l := texts.map (indented 1)), hdeeper]
  simp

theorem Appends.output_eq (h : Appends f texts) :
    (f .empty).output = String.intercalate "\n" texts := by
  have hwritten : texts.map (indented 0) = texts := by
    rw [List.map_congr_left fun text _ => indented_zero text, List.map_id']
  rw [h]
  simp [output, empty, hwritten]

end LuaBindings.CodeWriter
