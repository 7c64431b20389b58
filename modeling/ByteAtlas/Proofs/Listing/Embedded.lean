/-
Definitions that are shown in several places. If holding and referring run in no ring, it does not matter where the inside of
a definition is listed: what is open there and what lies above never keeps a reference from being followed.

- `block_congr`: without rings a block depends neither on the definitions that are open nor on the depth it may go to.
- `block_induction`: what holds of rows however they are put together holds of blocks.
- `beneath`: the rows that follow a row and lie deeper.
- `Told`: the rows of a listing tell by themselves what is beneath them; what is beneath a node that shows a definition is
  the members of that definition.
- `beneath_embedded`: beneath a struct or an element that is filled by a definition are the same rows as beneath the
  definition at its own place, moved.
-/
import ByteAtlas.Proofs.Listing.Blocks
import ByteAtlas.Proofs.Tree.Acyclic

namespace ByteAtlas

namespace Listing

/-- the rows beneath the one at a position: those that follow it as long as they lie deeper -/
def beneath (rows : List Row) (j : Nat) : List Row :=
  match rows[j]? with
  | none => []
  | some r => (rows.drop (j + 1)).takeWhile fun x => r.depth < x.depth

/-- a row beneath one row, put in the same place beneath another one -/
def Row.carried (source target r : Row) : Row :=
  { r with address := r.address + (target.address - source.address), depth := r.depth - source.depth + target.depth }

end Listing

namespace Tree

open Listing Relation

variable {t : Tree} {o : Options} {i j k depth fuel fuel' : Nat} {n m : Node} {d x : NodeId} {address : UInt64}
  {opened opened' : List NodeId} {rows rows' : List Row} {r : Row} {rank : NodeId → Nat}

/-! ## Context does not matter -/

/-- every definition that is open leads to a node -/
def Within (t : Tree) (opened : List NodeId) (id : NodeId) : Prop := ∀ d ∈ opened, TransGen t.Leads d id

theorem within_nil (id : NodeId) : t.Within [] id := fun _ hd => absurd hd List.not_mem_nil

theorem Within.child (hin : t.Within opened n.id) (hn : n ∈ t.nodes) (hm : m ∈ t.nodes) (hp : m.parent = n.id) :
    t.Within opened m.id := fun d hd => (hin d hd).tail (.holds hn hm hp)

theorem Within.filled {k : Node} (hin : t.Within opened n.id) (hn : n ∈ t.nodes) (hfill : t.FilledBy n k)
    (hm : m ∈ t.nodes) (hp : m.parent = k.id) : t.Within (k.id :: opened) m.id := by
  have hlast : t.Leads k.id m.id := .holds hfill.mem hm hp
  intro d hd
  rcases List.mem_cons.1 hd with rfl | hd
  · exact .single hlast
  · exact ((hin d hd).tail (.filled hn hfill)).tail hlast

theorem heldRows_congr {rows rows' : Nat → UInt64 → Nat → List Row}
    (hrows : ∀ c m, t.nodes[c]? = some m → m.parent = x → ∀ address depth, rows c address depth = rows' c address depth)
    (address : UInt64) (depth : Nat) : t.heldRows rows x address depth = t.heldRows rows' x address depth := by
  refine List.flatMap_congr fun c hc => ?_
  obtain ⟨m, hm, hp⟩ := mem_children.1 hc
  exact hrows c m hm hp _ _

section Contexts

variable (h : t.Formed) (hacyclic : t.Acyclic) (ho : o.expand)

include h hacyclic ho

/-- **What a node is filled by is opened inside it, whatever is open.** -/
theorem definitionIn_eq_some_iff (hn : n ∈ t.nodes) (hk : n.kind.canHold) (hempty : ∀ k ∈ t.nodes, k.parent ≠ n.id)
    (hin : t.Within opened n.id) :
    t.definitionIn o opened n = some d ↔ ∃ m, t.FilledBy n m ∧ m.id = d := by
  constructor
  · intro hd
    obtain ⟨href, helement, -, m, hm, hmk⟩ := definitionIn_eq_some hd
    obtain ⟨hmem, hmid⟩ := (find?_eq_some_iff h.indexed).1 hm
    have hholder := (Kind.canHold_iff.1 hk).imp_right fun harray => And.intro harray (helement harray)
    exact ⟨m, ⟨hholder, hempty, href.trans hmid.symm, hmem, hmk⟩, hmid⟩
  · rintro ⟨m, hfill, rfl⟩
    have hback : t.Leads n.id m.id := .filled hn hfill
    -- anything that kept the reference from being followed would close a ring
    have hself : n.ref ≠ n.id := by
      intro e
      have hsame : m.id = n.id := hfill.ref.symm.trans e
      exact hacyclic n.id (.single (hsame ▸ hback))
    have hopen : n.ref ∉ opened := fun hmem => hacyclic m.id ((hin _ (hfill.ref ▸ hmem)).tail hback)
    have habove : t.liesAbove n.ref n.id = false := by
      rw [← Bool.not_eq_true, liesAbove_iff h, hfill.ref]
      exact fun hab => hacyclic m.id (.trans_right (leads_of_liesAbove h hab) (.single hback))
    have hnonzero : n.ref ≠ 0 := hfill.ref ▸ h.forest.nonzero m hfill.mem
    have hfind : t.find? n.ref = some m := (find?_eq_some_iff h.indexed).2 ⟨hfill.mem, hfill.ref.symm⟩
    have hkind : ¬ (n.kind = .array ∧ n.elementKind ≠ .struct) := by
      rintro ⟨harray, helement⟩
      rcases hfill.holder with hstruct | ⟨-, hrow⟩
      · rw [harray] at hstruct
        cases hstruct
      · exact helement hrow
    rw [definitionIn, if_neg hkind, opening, hfind, if_neg (by simp [ho, hnonzero, hself, hopen, habove])]
    simp [hfill.kind, hfill.ref]

/-- a struct or an array that holds nothing shows what fills it, or nothing -/
theorem definitionIn_cases (hn : n ∈ t.nodes) (hk : n.kind.canHold) (hempty : ∀ k ∈ t.nodes, k.parent ≠ n.id)
    (hin : t.Within opened n.id) :
    (∃ m, t.FilledBy n m ∧ t.definitionIn o opened n = some m.id) ∨
      (∀ m, ¬ t.FilledBy n m) ∧ t.definitionIn o opened n = none := by
  have hiff := fun d => definitionIn_eq_some_iff (d := d) h hacyclic ho hn hk hempty hin
  cases hd : t.definitionIn o opened n with
  | some d =>
    obtain ⟨m, hfill, rfl⟩ := (hiff d).1 hd
    exact .inl ⟨m, hfill, rfl⟩
  | none =>
    refine .inr ⟨fun m hfill => ?_, rfl⟩
    exact absurd (hd.symm.trans ((hiff m.id).2 ⟨m, hfill, rfl⟩)) (by simp)

/-- what is inside a node is the same in two contexts if the blocks of all nodes that it leads to are -/
theorem insideRows_congr (hn : n ∈ t.nodes) (hk : n.kind.canHold) (hin : t.Within opened n.id)
    (hin' : t.Within opened' n.id)
    (hblocks : ∀ c m, t.nodes[c]? = some m → TransGen t.Leads n.id m.id → ∀ l l', t.Within l m.id → t.Within l' m.id →
      ∀ address depth, t.block o fuel l c address depth = t.block o fuel' l' c address depth)
    (address : UInt64) (depth : Nat) :
    t.insideRows o fuel opened i n address depth = t.insideRows o fuel' opened' i n address depth := by
  by_cases hempty : ∀ k ∈ t.nodes, k.parent ≠ n.id
  · have hdefinition : ∀ address depth,
        t.definitionRows o fuel opened (t.definitionIn o opened n) address depth =
          t.definitionRows o fuel' opened' (t.definitionIn o opened' n) address depth := by
      intro address depth
      have hsame : t.definitionIn o opened n = t.definitionIn o opened' n :=
        Option.ext fun d => (definitionIn_eq_some_iff h hacyclic ho hn hk hempty hin).trans
          (definitionIn_eq_some_iff h hacyclic ho hn hk hempty hin').symm
      rw [← hsame]
      rcases definitionIn_cases h hacyclic ho hn hk hempty hin with ⟨d, hfill, hd⟩ | ⟨-, hd⟩
      · rw [hd]
        refine heldRows_congr (fun c m hm hp address depth => ?_) address depth
        have hmem := List.mem_of_getElem? hm
        exact hblocks c m hm (.tail (.single (.filled hn hfill)) (.holds hfill.mem hmem hp)) _ _
          (hin.filled hn hfill hmem hp) (hin'.filled hn hfill hmem hp) address depth
      · rw [hd]
        rfl
    simp only [insideRows, hdefinition, children_isEmpty_iff.2 hempty, if_true]
  · rw [insideRows, insideRows, if_neg (children_isEmpty_iff.not.2 hempty), if_neg (children_isEmpty_iff.not.2 hempty)]
    refine heldRows_congr (fun c m hm hp address depth => ?_) address depth
    have hmem := List.mem_of_getElem? hm
    exact hblocks c m hm (.single (.holds hn hmem hp)) _ _ (hin.child hn hmem hp) (hin'.child hn hmem hp) address depth

/-- **Without rings a block depends neither on the definitions that are open nor on how deep it may go.** -/
theorem block_congr (hrank : ∀ a b, t.Leads a b → rank b < rank a) (hn : t.nodes[i]? = some n)
    (hfuel : rank n.id < fuel) (hfuel' : rank n.id < fuel') (hin : t.Within opened n.id) (hin' : t.Within opened' n.id)
    (address : UInt64) (depth : Nat) :
    t.block o fuel opened i address depth = t.block o fuel' opened' i address depth := by
  induction fuel generalizing fuel' opened opened' i n address depth with
  | zero => omega
  | succ fuel ih =>
    obtain ⟨fuel', rfl⟩ := Nat.exists_eq_succ_of_ne_zero (Nat.ne_zero_of_lt hfuel')
    by_cases hk : n.kind.canHold
    · rw [block_of_canHold hn hk, block_of_canHold hn hk]
      refine congrArg _ (insideRows_congr h hacyclic ho (List.mem_of_getElem? hn) hk hin hin' ?_ address _)
      intro c m hm hnm l l' hl hl' address depth
      have hlt := rank_lt_of_transGen hrank hnm
      exact ih hm (by omega) (by omega) hl hl' address depth
    · rw [block_of_not_canHold hn hk, block_of_not_canHold hn hk]

end Contexts

/-! ## What is beneath a row -/

/-- what an id holds, each with all that is inside -/
def memberRows (t : Tree) (o : Options) (x : NodeId) (address : UInt64) (depth : Nat) : List Row :=
  t.heldRows (t.block o t.nestingBound []) x address depth

/-- a row that stands for an unfolded struct filled by a definition, or for an element filled by it -/
def Embeds (t : Tree) (r : Row) (d : Node) : Prop :=
  ∃ n ∈ t.nodes, n.id = r.node ∧ t.FilledBy n d ∧
    (n.kind = .struct ∧ n.collapsed = false ∧ r.role = .structHeader ∨ n.kind = .array ∧ r.role = .arrayElement)

/-- a row that has the members of an id beneath it: that of an unfolded struct with members, or one filled by a definition -/
inductive Shows (t : Tree) (r : Row) : NodeId → Prop
  | own {n m : Node} : n ∈ t.nodes → n.id = r.node → r.role = .structHeader → n.kind = .struct → n.collapsed = false →
    m ∈ t.nodes → m.parent = n.id → Shows t r n.id
  | embedded {d : Node} : t.Embeds r d → Shows t r d.id

/-- rows on a level and below, the first one on the level, in which the rows beneath one that shows an id are those of its
members -/
structure Told (t : Tree) (o : Options) (depth : Nat) (rows : List Row) : Prop where
  deep : ∀ r ∈ rows, depth ≤ r.depth
  head : ∀ r ∈ rows.head?, r.depth ≤ depth
  told : ∀ before r after x, rows = before ++ r :: after → t.Shows r x →
    (after.takeWhile fun y => r.depth < y.depth) = t.memberRows o x r.address (r.depth + 1)

theorem Told.nil : t.Told o depth [] where
  deep _ hr := absurd hr List.not_mem_nil
  head r hr := by simp at hr
  told before r after x e := by simp at e

theorem takeWhile_append_of_head {α : Type*} {p : α → Bool} {xs ys : List α} (hys : ∀ y ∈ ys.head?, p y = false) :
    (xs ++ ys).takeWhile p = xs.takeWhile p := by
  induction xs with
  | nil =>
    cases ys with
    | nil => rfl
    | cons y ys => simp [hys y rfl]
  | cons x xs ih => simp only [List.cons_append, List.takeWhile_cons, ih]

theorem Told.append (hrows : t.Told o depth rows) (hrows' : t.Told o depth rows') : t.Told o depth (rows ++ rows') where
  deep r hr := (List.mem_append.1 hr).elim (hrows.deep r) (hrows'.deep r)
  head r hr := by
    cases rows with
    | nil => exact hrows'.head r hr
    | cons y rows => exact hrows.head r hr
  told before r after x e hshows := by
    rcases List.append_eq_append_iff.1 e with ⟨front, rfl, hafter⟩ | ⟨rest, rfl, hafter⟩
    · exact hrows'.told front r after x hafter hshows
    · cases rest with
      | nil => exact hrows'.told [] r after x hafter.symm hshows
      | cons y rest =>
        rw [List.cons_append] at hafter
        obtain ⟨rfl, rfl⟩ := List.cons.inj hafter
        -- the rows that follow start on a level that is not below the row
        rw [takeWhile_append_of_head]
        · exact hrows.told before r rest x rfl hshows
        · intro y hy
          have hlow := hrows.deep r (by simp)
          have hhigh := hrows'.head y hy
          simp only [decide_eq_false_iff_not]
          omega

theorem Told.flatMap {α : Type*} {xs : List α} {f : α → List Row} (hf : ∀ a ∈ xs, t.Told o depth (f a)) :
    t.Told o depth (xs.flatMap f) := flatMap_induction .nil (fun _ _ => .append) hf

/-- a row is told by what follows it one level below -/
theorem Told.cons (hdepth : r.depth = depth) (hrows : t.Told o (depth + 1) rows)
    (hr : ∀ x, t.Shows r x → rows = t.memberRows o x r.address (depth + 1)) : t.Told o depth (r :: rows) where
  deep y hy := by
    rcases List.mem_cons.1 hy with rfl | hy
    · exact hdepth.ge
    · exact Nat.le_of_succ_le (hrows.deep y hy)
  head y hy := by
    obtain rfl := Option.some.inj hy
    exact hdepth.le
  told before y after x e hshows := by
    cases before with
    | nil =>
      obtain ⟨rfl, rfl⟩ := List.cons.inj e
      rw [List.takeWhile_eq_self_iff.2, hr x hshows, hdepth]
      intro y hy
      have hdeep := hrows.deep y hy
      simp only [decide_eq_true_eq]
      omega
    | cons z before => exact hrows.told before y after x (List.cons.inj e).2 hshows

theorem Told.singleton (hdepth : r.depth = depth) (hr : ∀ x, ¬ t.Shows r x) : t.Told o depth [r] :=
  .cons hdepth .nil fun x hx => absurd hx (hr x)

/-- a row of another role stands alone -/
theorem not_shows (hstruct : r.role ≠ .structHeader) (helement : r.role ≠ .arrayElement) (x : NodeId) : ¬ t.Shows r x := by
  rintro (⟨-, -, hr, -⟩ | ⟨-, -, -, -, ⟨-, -, hr⟩ | ⟨-, hr⟩⟩)
  · exact hstruct hr
  · exact hstruct hr
  · exact helement hr

theorem exists_nestingBound (t : Tree) : ∃ fuel, t.nestingBound = fuel + 1 :=
  Nat.exists_eq_succ_of_ne_zero (Nat.mul_ne_zero (Nat.succ_ne_zero _) (Nat.succ_ne_zero _))

/-- a node that can hold no others has one row -/
theorem block_eq_row (hn : t.nodes[i]? = some n) (hk : ¬ n.kind.canHold) (address : UInt64) (depth : Nat) :
    t.block o t.nestingBound [] i address depth = [t.row n n.kind.role address (t.size i) depth] := by
  obtain ⟨fuel, hfuel⟩ := t.exists_nestingBound
  rw [hfuel, block_of_not_canHold hn hk]

theorem insideRows_of_empty (hempty : ∀ k ∈ t.nodes, k.parent ≠ n.id) (hk : n.kind = .struct) (address : UInt64)
    (depth : Nat) : t.insideRows o fuel opened i n address depth =
      t.definitionRows o fuel opened (t.definitionIn o opened n) address depth := by
  rw [insideRows, if_pos (children_isEmpty_iff.2 hempty), if_neg (by simp [hk])]

theorem insideRows_of_held (hm : m ∈ t.nodes) (hp : m.parent = n.id) (address : UInt64) (depth : Nat) :
    t.insideRows o t.nestingBound [] i n address depth = t.memberRows o n.id address depth :=
  if_neg fun he => children_isEmpty_iff.1 he m hm hp

/-! ## What a listing tells -/

section Told

variable (h : t.Formed) (hacyclic : t.Acyclic) (ho : o.expand)

include h hacyclic ho

/-- a block at full depth with nothing open is what it is in every context without rings -/
theorem block_settled (hn : t.nodes[i]? = some n) (hfuel : t.nodes.length ≤ fuel) (hin : t.Within opened n.id)
    (address : UInt64) (depth : Nat) :
    t.block o fuel opened i address depth = t.block o t.nestingBound [] i address depth := by
  obtain ⟨rank, hlen, hrank⟩ := hacyclic.exists_rank
  have hlt := hlen n (List.mem_of_getElem? hn)
  have hbound := t.length_le_nestingBound
  exact block_congr h hacyclic ho hrank hn (by omega) (by omega) hin (within_nil _) address depth

/-- the rows of a container with what is inside at full depth -/
theorem block_eq_bracket (hn : t.nodes[i]? = some n) (hk : n.kind.canHold) (address : UInt64) (depth : Nat) :
    t.block o t.nestingBound [] i address depth =
      t.bracket n n.kind.role address (t.size i) depth (t.insideRows o t.nestingBound [] i n address (depth + 1)) := by
  rw [← block_settled h hacyclic ho hn (Nat.le_succ_of_le t.length_le_nestingBound) (within_nil _), block_of_canHold hn hk]

/-- inside what is filled by a definition are the members of the definition -/
theorem definitionRows_eq (hn : n ∈ t.nodes) (hk : n.kind.canHold) {d : Node} (hfill : t.FilledBy n d)
    (address : UInt64) (depth : Nat) :
    t.definitionRows o t.nestingBound [] (t.definitionIn o [] n) address depth = t.memberRows o d.id address depth := by
  rw [(definitionIn_eq_some_iff h hacyclic ho hn hk hfill.empty (within_nil _)).2 ⟨d, hfill, rfl⟩]
  refine heldRows_congr (fun c m hm hp address depth => ?_) address depth
  have hin : t.Within [d.id] m.id := (within_nil _).filled hn hfill (List.mem_of_getElem? hm) hp
  exact block_settled h hacyclic ho hm t.length_le_nestingBound hin address depth

section Induction

variable {motive : Nat → List Row → Prop} (nil : ∀ depth, motive depth [])
  (append : ∀ depth rows rows', motive depth rows → motive depth rows' → motive depth (rows ++ rows'))
  (element : ∀ n ∈ t.nodes, n.kind.canHold → ∀ k address stride depth,
    motive (depth + 1) (t.definitionRows o t.nestingBound [] (t.definitionIn o [] n) address (depth + 1)) →
    motive depth (t.elementRow n k address stride depth ::
      t.definitionRows o t.nestingBound [] (t.definitionIn o [] n) address (depth + 1)))
  (truncated : ∀ n rest address size depth, motive depth [truncatedRow n rest address size depth])

include nil append element truncated

/-- The inside of a node is made up of blocks of nodes that it leads to, of rows of elements and of the row in place of those
that are left. -/
theorem insideRows_induction (hn : n ∈ t.nodes) (hk : n.kind.canHold)
    (hblocks : ∀ c m, t.nodes[c]? = some m → TransGen t.Leads n.id m.id → ∀ address depth,
      motive depth (t.block o t.nestingBound [] c address depth)) (address : UInt64) (depth : Nat) :
    motive depth (t.insideRows o t.nestingBound [] i n address depth) := by
  by_cases hempty : ∀ k ∈ t.nodes, k.parent ≠ n.id
  · have hdefinition : ∀ address depth,
        motive depth (t.definitionRows o t.nestingBound [] (t.definitionIn o [] n) address depth) := by
      intro address depth
      rcases definitionIn_cases h hacyclic ho hn hk hempty (within_nil _) with ⟨d, hfill, -⟩ | ⟨-, hd⟩
      · rw [definitionRows_eq h hacyclic ho hn hk hfill]
        refine flatMap_induction (nil _) (append _) fun c hc => ?_
        obtain ⟨m, hm, hp⟩ := mem_children.1 hc
        exact hblocks c m hm (.tail (.single (.filled hn hfill)) (.holds hfill.mem (List.mem_of_getElem? hm) hp)) _ _
      · rw [hd]
        exact nil depth
    by_cases harray : n.kind = .array
    · rw [insideRows, if_pos (children_isEmpty_iff.2 hempty), if_pos harray, elementRows]
      refine append _ _ _ (flatMap_induction (nil _) (append _) fun k _ => element n hn hk _ _ _ _ (hdefinition _ _)) ?_
      split_ifs
      · exact truncated n _ _ _ depth
      · exact nil depth
    · rw [insideRows, if_pos (children_isEmpty_iff.2 hempty), if_neg harray]
      exact hdefinition address depth
  · push Not at hempty
    obtain ⟨m, hm, hp⟩ := hempty
    rw [insideRows_of_held hm hp]
    refine flatMap_induction (nil _) (append _) fun c hc => ?_
    obtain ⟨m, hm, hp⟩ := mem_children.1 hc
    exact hblocks c m hm (.single (.holds hn (List.mem_of_getElem? hm) hp)) _ _

/-- **What holds of rows however they are put together holds of blocks**: of rows side by side, of the rows of elements, of
the rows of nodes that hold no others, and of those of a container if it holds of what is inside. -/
theorem block_induction
    (leaf : ∀ i n, t.nodes[i]? = some n → ¬ n.kind.canHold → ∀ address depth,
      motive depth [t.row n n.kind.role address (t.size i) depth])
    (container : ∀ i n, t.nodes[i]? = some n → n.kind.canHold → ∀ address depth,
      motive (depth + 1) (t.insideRows o t.nestingBound [] i n address (depth + 1)) →
      motive depth (t.bracket n n.kind.role address (t.size i) depth
        (t.insideRows o t.nestingBound [] i n address (depth + 1))))
    (hn : t.nodes[i]? = some n) (address : UInt64) (depth : Nat) :
    motive depth (t.block o t.nestingBound [] i address depth) := by
  obtain ⟨rank, -, hrank⟩ := hacyclic.exists_rank
  induction hr : rank n.id using Nat.strong_induction_on generalizing i n address depth with
  | _ _ ih =>
    subst hr
    by_cases hk : n.kind.canHold
    · rw [block_eq_bracket h hacyclic ho hn hk]
      refine container i n hn hk address depth (insideRows_induction h hacyclic ho nil append element truncated
        (List.mem_of_getElem? hn) hk (fun c m hm hnm address depth => ?_) address (depth + 1))
      exact ih _ (rank_lt_of_transGen hrank hnm) hm address depth rfl
    · rw [block_eq_row hn hk]
      exact leaf i n hn hk address depth

end Induction

/-- the row of a struct or an array tells what is inside if that follows it -/
theorem told_bracket (hn : n ∈ t.nodes) (hk : n.kind.canHold) {size : UInt64}
    (hinside : t.Told o (depth + 1) (t.insideRows o t.nestingBound [] i n address (depth + 1))) :
    t.Told o depth (t.bracket n n.kind.role address size depth
      (t.insideRows o t.nestingBound [] i n address (depth + 1))) := by
  have helement : n.kind.role ≠ .arrayElement := by cases n.kind <;> decide
  -- what the row shows it shows as the row of the node
  have hnode : ∀ m ∈ t.nodes, m.id = n.id → m = n := fun m hm hid => h.forest.eq_of_id_eq hm hn hid
  unfold bracket
  by_cases hfold : n.collapsed
  · rw [if_pos hfold]
    refine .singleton rfl ?_
    rintro x (⟨hm, hid, -, -, hopen, -⟩ | ⟨m, hm, hid, -, ⟨-, hopen, -⟩ | ⟨-, hrole⟩⟩)
    · obtain rfl := hnode _ hm hid
      simp [hfold] at hopen
    · obtain rfl := hnode m hm hid
      simp [hfold] at hopen
    · exact helement hrole
  · rw [if_neg hfold, ← List.cons_append]
    refine .append (.cons rfl hinside ?_) (.singleton rfl (not_shows (by simp [row]) (by simp [row])))
    rintro x (⟨hm, hid, -, -, -, hc, hp⟩ | ⟨m, hm, hid, hfill, ⟨hstruct, -, -⟩ | ⟨-, hrole⟩⟩)
    · obtain rfl := hnode _ hm hid
      exact insideRows_of_held hc hp _ _
    · obtain rfl := hnode m hm hid
      rw [insideRows_of_empty hfill.empty hstruct]
      exact definitionRows_eq h hacyclic ho hn hk hfill _ _
    · exact absurd hrole helement

/-- **In a block every row tells what is beneath it.** -/
theorem told_block (hn : t.nodes[i]? = some n) (address : UInt64) (depth : Nat) :
    t.Told o depth (t.block o t.nestingBound [] i address depth) := by
  refine block_induction (motive := t.Told o) h hacyclic ho (fun _ => .nil) (fun _ _ _ => .append) ?element ?truncated
    ?leaf ?container hn address depth
  case element =>
    refine fun n hn hk k address stride depth hrows => .cons rfl hrows ?_
    rintro x (⟨-, -, hr, -⟩ | ⟨n', hn', hid, hfill, ⟨-, -, hr⟩ | -⟩)
    · cases hr
    · cases hr
    · obtain rfl := h.forest.eq_of_id_eq hn' hn hid
      exact definitionRows_eq h hacyclic ho hn hk hfill _ _
  case truncated =>
    exact fun n rest address size depth =>
      .singleton rfl (not_shows (by simp [truncatedRow]) (by simp [truncatedRow]))
  case leaf =>
    refine fun i n _ hk address depth => .singleton rfl (not_shows ?_ ?_)
    · cases hkind : n.kind <;> simp_all [row, Kind.role, Kind.canHold]
    · cases hkind : n.kind <;> simp_all [row, Kind.role, Kind.canHold]
  case container =>
    exact fun i n hn hk address depth => told_bracket h hacyclic ho (List.mem_of_getElem? hn) hk

/-- beneath a row that shows an id are its members -/
theorem beneath_of_shows (hr : (t.listing o)[j]? = some r) (hshows : t.Shows r x) :
    beneath (t.listing o) j = t.memberRows o x r.address (r.depth + 1) := by
  have htold : t.Told o 0 (t.listing o) := by
    refine Told.flatMap fun i hi => ?_
    obtain ⟨n, hn, -⟩ := mem_children.1 hi
    exact told_block h hacyclic ho hn _ 0
  obtain ⟨hj, hget⟩ := List.getElem?_eq_some_iff.1 hr
  have hsplit : t.listing o = (t.listing o).take j ++ r :: (t.listing o).drop (j + 1) := by
    rw [← hget, ← List.drop_eq_getElem_cons hj, List.take_append_drop]
  rw [beneath, hr]
  exact htold.told _ r _ x hsplit hshows

end Told

/-! ## The same elsewhere -/

/-- members are listed elsewhere as they are listed in one place, moved -/
theorem memberRows_carried (source target : Row) : (t.memberRows o x source.address (source.depth + 1)).map
    (Row.carried source target) = t.memberRows o x target.address (target.depth + 1) := by
  have hplaced : ∀ r : Row, t.memberRows o x r.address (r.depth + 1) =
      (t.memberRows o x 0 0).map (Row.moved r.address (r.depth + 1)) := by
    intro r
    have hblocks := t.block_moved (o := o) r.address (r.depth + 1) t.nestingBound []
    rw [memberRows, memberRows, heldRows_moved hblocks, UInt64.zero_add, Nat.zero_add]
  rw [hplaced source, hplaced target, List.map_map]
  refine List.map_congr_left fun y _ => ?_
  have haddress : y.address + source.address + (target.address - source.address) = y.address + target.address := by
    rw [UInt64.add_assoc, UInt64.add_comm source.address, UInt64.sub_add_cancel]
  have hdepth : y.depth + (source.depth + 1) - source.depth + target.depth = y.depth + (target.depth + 1) := by omega
  simp only [Function.comp_apply, Row.carried, Row.moved, haddress, hdepth]

/-- the row of a node is in the listing if no folded node hides it -/
theorem rowAt_mem_block (h : t.Formed) (hn : t.nodes[i]? = some n) (hj : j ∈ t.unfolded fuel i) :
    ∃ r ∈ t.block o fuel opened i (t.address i) (t.level n.id), t.rowAt j = some r := by
  induction fuel generalizing i n with
  | zero => simp [unfolded] at hj
  | succ fuel ih =>
    have hmem := List.mem_of_getElem? hn
    rw [unfolded_succ_of_some hn] at hj
    rcases List.mem_cons.1 hj with rfl | hj
    · refine ⟨_, ?_, by rw [rowAt, hn]; rfl⟩
      by_cases hk : n.kind.canHold
      · rw [block_of_canHold hn hk]
        exact List.mem_cons_self
      · rw [block_of_not_canHold hn hk]
        exact List.mem_cons_self
    · by_cases hfold : n.collapsed
      · simp [hfold] at hj
      · rw [if_neg hfold] at hj
        obtain ⟨c, hc, hj⟩ := List.mem_flatMap.1 hj
        obtain ⟨m, hm, hp⟩ := mem_children.1 hc
        obtain ⟨r, hr, hrow⟩ := ih hm hj
        refine ⟨r, ?_, hrow⟩
        have hk : n.kind.canHold :=
          (h.forest.canHold_or_childless hmem).resolve_right fun hno => hno m (List.mem_of_getElem? hm) hp
        have hempty : ¬ (t.children n.id).isEmpty := fun he => by simp [List.isEmpty_iff.1 he] at hc
        rw [block_of_canHold hn hk, bracket, if_neg hfold, insideRows, if_neg hempty]
        refine List.mem_cons_of_mem _ (List.mem_append_left _ (List.mem_flatMap.2 ⟨c, hc, ?_⟩))
        rwa [← address_child h hn hc, ← level_child h hmem (List.mem_of_getElem? hm) hp]

theorem rowAt_mem_listing (h : t.Formed) (hn : t.nodes[i]? = some n) (hshown : ∀ a, ¬ t.Hides a i) :
    ∃ r ∈ t.listing o, t.rowAt i = some r := by
  obtain ⟨j, hj, hi⟩ := List.mem_flatMap.1 ((mem_shown_iff h).2 ⟨⟨n, hn⟩, hshown⟩)
  obtain ⟨m, hm, hp⟩ := mem_children.1 hj
  obtain ⟨r, hr, hrow⟩ : ∃ r ∈ t.block o t.nestingBound [] j (t.address j) (t.level m.id), t.rowAt i = some r :=
    rowAt_mem_block h hm hi
  rw [level_root h (List.mem_of_getElem? hm) hp] at hr
  exact ⟨r, List.mem_flatMap.2 ⟨j, hj, hr⟩, hrow⟩

/-- **What embeds a definition shows what the definition shows.** Let no way of holding and being filled lead back to where
it started. If a struct with members is not folded, and nothing above it is, its row is in the listing; and beneath each
row of an unfolded struct or of an element that it fills are the same rows as beneath its own, moved from the one place to
the other. -/
theorem beneath_embedded (h : t.Formed) (hacyclic : t.Acyclic) (ho : o.expand) {d : Node} (hd : t.nodes[i]? = some d)
    (hkind : d.kind = .struct) (hmember : ∃ m ∈ t.nodes, m.parent = d.id) (hopen : d.collapsed = false)
    (hshown : ∀ a, ¬ t.Hides a i) : ∃ own ∈ t.listing o, t.rowAt i = some own ∧
      ∀ j k r, (t.listing o)[j]? = some own → (t.listing o)[k]? = some r → t.Embeds r d →
        beneath (t.listing o) k = (beneath (t.listing o) j).map (Row.carried own r) := by
  obtain ⟨own, hown, hrow⟩ := rowAt_mem_listing (o := o) h hd hshown
  refine ⟨own, hown, hrow, fun j k r hj hk hr => ?_⟩
  obtain ⟨m, hm, hp⟩ := hmember
  have hshows : t.Shows own d.id := by
    rw [rowAt, hd, Option.map_some, hkind] at hrow
    obtain rfl := Option.some.inj hrow
    exact .own (List.mem_of_getElem? hd) rfl rfl hkind hopen hm hp
  rw [beneath_of_shows h hacyclic ho hj hshows, beneath_of_shows h hacyclic ho hk (.embedded hr), memberRows_carried]

theorem shapeTree_acyclic : shapeTree.Acyclic := by
  have hrank : ∀ a b, shapeTree.Leads a b → shapeRank b < shapeRank a := by
    intro a b hab
    cases hab with
    | holds hn hm hp => exact shapeRank_lt _ hn _ hm (.inl hp)
    | filled hn hfill => exact shapeRank_lt _ hn _ hfill.mem (.inr hfill.ref)
  exact noRing_of_rank hrank

/-- the line in the shape and the second line of its row have beneath them what the line has, with the points inside -/
theorem beneath_embedded_shape : ∃ own edge second, shapeTree.rowAt 3 = some own ∧
    (shapeTree.listing .standard)[1]? = some edge ∧ (shapeTree.listing .standard)[21]? = some second ∧
    (edge.name, edge.depth, edge.address) = ("edge", 1, 0) ∧ (second.name, second.depth, second.address) = ("[1]", 2, 32) ∧
    beneath (shapeTree.listing .standard) 1 = (beneath (shapeTree.listing .standard) 32).map (Row.carried own edge) ∧
    beneath (shapeTree.listing .standard) 21 = (beneath (shapeTree.listing .standard) 32).map (Row.carried own second) := by
  have h : shapeTree.Formed := (wellFormed_ofNodes (show ofNodes 0 shapeNodes 1 = .ok shapeTree from rfl)).toFormed
  have hopen : ∀ n ∈ shapeNodes, n.collapsed = false := by decide
  have hshown : ∀ a, ¬ shapeTree.Hides a 3 := by
    rintro a ⟨⟨n, hn, hfolded⟩, -⟩
    exact absurd (hopen n (List.mem_of_getElem? hn)) (by simp [hfolded])
  have hmember : ∃ m ∈ shapeTree.nodes, m.parent = (4 : NodeId) := ⟨shapeNodes[4], by decide, rfl⟩
  obtain ⟨own, -, hown, hrows⟩ := beneath_embedded (i := 3) (o := .standard) h shapeTree_acyclic rfl rfl rfl hmember rfl hshown
  have hedge : shapeTree.FilledBy shapeNodes[7] shapeNodes[3] := ⟨.inl rfl, by decide, rfl, by decide, rfl⟩
  have hrow : shapeTree.FilledBy shapeNodes[8] shapeNodes[3] := ⟨.inr ⟨rfl, rfl⟩, by decide, rfl, by decide, rfl⟩
  have hfirst : (shapeTree.listing .standard)[32]? = shapeTree.rowAt 3 := by decide
  refine ⟨own, _, _, hown, rfl, rfl, by decide, by decide, ?_, ?_⟩
  · exact hrows 32 1 _ (hfirst.trans hown) rfl ⟨shapeNodes[7], by decide, rfl, hedge, .inl ⟨rfl, rfl, rfl⟩⟩
  · exact hrows 32 21 _ (hfirst.trans hown) rfl ⟨shapeNodes[8], by decide, rfl, hrow, .inr ⟨rfl, rfl⟩⟩

end Tree

end ByteAtlas
