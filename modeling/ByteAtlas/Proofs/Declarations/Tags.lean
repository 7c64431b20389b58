/-
The tags under which structs are defined. Structs are surveyed by their ids, but a tag is made of a name; several structs may
have one name, and several names may make one tag.

- `timesDefined_le_one_iff`: no tag is defined twice if and only if no two structs that the start leads to have the same tag.
- `twice_defined_segment`: two structs of one name, in a third one, are both defined under it.
-/
import ByteAtlas.Proofs.Declarations.Reach

namespace ByteAtlas.Tree

variable {t : Tree}

/-- **No tag is defined twice if and only if no two structs that the start leads to have one tag.** Each struct has the tag
that its type name, or the label in place of one, makes, and a tag is defined once for every struct that has it. -/
theorem timesDefined_le_one_iff (h : t.Formed) (scope : Option NodeId) :
    (∀ tag, timesDefined tag (t.rendered scope) = (t.declared scope).countP fun x => t.tagAt x = tag) ∧
    ((∀ tag, timesDefined tag (t.rendered scope) ≤ 1) ↔
      ∀ x y n m, t.Reached scope x → t.Reached scope y → t.nodes[x]? = some n → t.nodes[y]? = some m →
        identifier n.typeName = identifier m.typeName → x = y) := by
  have hcount := timesDefined_rendered h.indexed scope
  have hnodup := (advances_declarationOrder h.indexed (t.starts scope)).nodup
  have hlist : (∀ tag, timesDefined tag (t.rendered scope) ≤ 1) ↔ ((t.declared scope).map t.tagAt).Nodup := by
    rw [List.nodup_iff_count_le_one]
    refine forall_congr' fun tag => ?_
    rw [hcount, List.count, List.countP_map]
    rfl
  refine ⟨hcount, hlist.trans ((List.nodup_map_iff_inj_on hnodup).trans ⟨?_, ?_⟩)⟩
  · intro hinj x y n m hx hy hn hm he
    refine hinj x ((mem_declared_iff_reached h.indexed scope).2 hx) y ((mem_declared_iff_reached h.indexed scope).2 hy) ?_
    rwa [tagAt_of_getElem? hn, tagAt_of_getElem? hm]
  · intro hinj x hx y hy he
    obtain ⟨n, hn, -⟩ := exists_struct_of_mem_declared h.indexed hx
    obtain ⟨m, hm, -⟩ := exists_struct_of_mem_declared h.indexed hy
    rw [tagAt_of_getElem? hn, tagAt_of_getElem? hm] at he
    exact hinj x y n m ((mem_declared_iff_reached h.indexed scope).1 hx) ((mem_declared_iff_reached h.indexed scope).1 hy)
      hn hm he

/-- the list and the table have tags of their own -/
theorem timesDefined_le_one_iff_selfish : selfish.Formed ∧ ∀ tag, timesDefined tag (selfish.rendered none) ≤ 1 := by
  refine ⟨formed_selfish, (timesDefined_le_one_iff formed_selfish none).2.2 fun x y n m hx hy hn hm he => ?_⟩
  have hboth : ∀ {x}, selfish.Reached none x → x ∈ [0, 1] := fun hx =>
    (by decide : selfish.declared none = [0, 1]) ▸ (mem_declared_iff_reached formed_selfish.indexed none).2 hx
  have htags : ∀ x ∈ [0, 1], ∀ y ∈ [0, 1], selfish.tagAt x = selfish.tagAt y → x = y := by decide
  refine htags x (hboth hx) y (hboth hy) ?_
  rwa [tagAt_of_getElem? hn, tagAt_of_getElem? hm]

/-- a struct with two points, each described where it stands -/
def segmentNodes : List Node :=
  [{ Node.rootStruct "s" "Segment" with id := 1 }, { Node.field 1 0 .struct "from" with id := 2, structName := "Point" },
    { Node.field 2 0 .float "x" with id := 3 }, { Node.field 1 4 .struct "to" with id := 4, structName := "Point" },
    { Node.field 4 0 .float "x" with id := 5 }]

def segment : Tree := segmentNodes.foldl push (empty 0)

/-- **Two structs of one name are both defined under it.** -/
theorem twice_defined_segment : segment.WellFormed ∧ timesDefined "Point" (segment.rendered (some 1)) = 2 ∧
    timesDefined "Point" (segment.rendered none) = 2 := by
  have hformed : segment.WellFormed := wellFormed_ofNodes (show ofNodes 0 segmentNodes 1 = .ok segment from rfl)
  refine ⟨hformed, ?_, ?_⟩ <;> rw [timesDefined_rendered hformed.indexed] <;> decide

end ByteAtlas.Tree
