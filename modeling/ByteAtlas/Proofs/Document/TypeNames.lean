/-
The names of new types. A struct that is made on the outermost level gets a name that no struct carries
(`Tree.freeName_not_mem`): among one more numbered names than there are names, one is left. But a struct that carries no name
is found by its label, and labels are not asked for.

- `Document.make_finds_iff`: the new struct is what its name comes to, and nothing else is, if and only if no nameless root
  struct is labelled so and the name does not come to be empty.
- `Document.make_shadowed`: a nameless root struct is found in place of one that is made after it.
-/
import ByteAtlas.Proofs.Document.Copied

namespace ByteAtlas

namespace Tree

variable {t u : Tree} {n : Node} {below : List Node} {name : String}

/-! ## Free names -/

theorem numbered_injective (stem : String) : Function.Injective fun k : Nat => stem ++ k.repr :=
  fun _ _ e => Nat.repr_injective ((String.append_right_inj stem).1 e)

/-- if one of the numbered names that are tried is free, a free one is found -/
theorem firstFree_not_mem {taken : List String} {stem : String} {tries i : Nat}
    (h : ∃ k ∈ List.range' i tries, stem ++ k.repr ∉ taken) : firstFree taken stem tries i ∉ taken := by
  induction tries generalizing i with
  | zero => simp at h
  | succ tries ih =>
    obtain ⟨k, hk, hfree⟩ := h
    rw [List.range'_succ, List.mem_cons] at hk
    rw [firstFree]
    split
    · next htaken =>
      rcases hk with rfl | hk
      · exact absurd (List.contains_iff_mem.1 htaken) hfree
      · exact ih ⟨k, hk, hfree⟩
    · next hnot => exact fun hin => hnot (List.contains_iff_mem.2 hin)

/-- **A free name is carried by no struct.** -/
theorem freeName_not_mem (t : Tree) (stem : String) : t.freeName stem ∉ t.structNames := by
  rw [freeName]
  split
  · refine firstFree_not_mem ?_
    -- there are more numbers to try than names
    by_contra hno
    have hsub : (List.range' 1 (t.structNames.length + 1)).map (fun k => stem ++ k.repr) ⊆ t.structNames := by
      intro x hx
      obtain ⟨k, hk, rfl⟩ := List.mem_map.1 hx
      by_contra hfree
      exact hno ⟨k, hk, hfree⟩
    have hnodup : ((List.range' 1 (t.structNames.length + 1)).map fun k => stem ++ k.repr).Nodup :=
      List.Nodup.map (numbered_injective stem) List.nodup_range'
    have hle := (hnodup.subperm hsub).length_le
    rw [List.length_map, List.length_range'] at hle
    omega
  · next hnot => exact fun hin => hnot (List.contains_iff_mem.2 hin)

theorem mem_structNames : name ∈ t.structNames ↔
    name ≠ "" ∧ ∃ n ∈ t.nodes, n.kind = .struct ∧ n.structName = name := by
  rw [structNames, List.mem_map]
  constructor
  · rintro ⟨n, hn, rfl⟩
    obtain ⟨hmem, hn⟩ := List.mem_filter.1 hn
    rw [Bool.and_eq_true, beq_iff_eq, bne_iff_ne] at hn
    exact ⟨hn.2, n, hmem, hn.1, rfl⟩
  · rintro ⟨hname, n, hn, hkind, rfl⟩
    refine ⟨n, List.mem_filter.2 ⟨hn, ?_⟩, rfl⟩
    rw [Bool.and_eq_true, beq_iff_eq, bne_iff_ne]
    exact ⟨hkind, hname⟩

/-! ## What a name comes to -/

/-- a name comes to one root struct, and to no other -/
def FindsOnly (t : Tree) (name : String) (id : NodeId) : Prop :=
  t.rootNamed? name = some id ∧ ∀ n ∈ t.nodes, n.isRoot → n.kind = .struct → n.typeName = name → n.id = id

instance (t : Tree) (name : String) (id : NodeId) : Decidable (t.FindsOnly name id) :=
  inferInstanceAs (Decidable (_ ∧ ∀ n ∈ t.nodes, _))

/-- no root struct without a name of its own is labelled so -/
def Unlabelled (t : Tree) (name : String) : Prop :=
  ∀ n ∈ t.nodes, n.isRoot → n.kind = .struct → n.structName = "" → n.name ≠ name

instance (t : Tree) (name : String) : Decidable (t.Unlabelled name) :=
  inferInstanceAs (Decidable (∀ n ∈ t.nodes, _))

theorem findsOnly_iff {id : NodeId} : t.FindsOnly name id ↔
    (∃ n ∈ t.rootsNamed name, n.id = id) ∧ ∀ n ∈ t.rootsNamed name, n.id = id := by
  have hall : (∀ n ∈ t.nodes, n.isRoot → n.kind = .struct → n.typeName = name → n.id = id) ↔
      ∀ n ∈ t.rootsNamed name, n.id = id := by
    simp only [rootsNamed, Adoption.mem_structsNamed, and_imp]
  rw [FindsOnly, hall, rootNamed?_eq_head?]
  refine and_congr_left fun hone => ⟨fun hhead => ?_, ?_⟩
  · obtain ⟨n, hn, hid⟩ := Option.map_eq_some_iff.1 hhead
    exact ⟨n, List.mem_of_head? hn, hid⟩
  · rintro ⟨n, hn, -⟩
    obtain ⟨m, rest, hroots⟩ := List.exists_cons_of_ne_nil (List.ne_nil_of_mem hn)
    rw [hroots, List.head?_cons, Option.map_some, hone m (hroots ▸ List.mem_cons_self)]

/-- a new struct under a name that no struct carries is what the name comes to, unless the name is empty or a label -/
theorem findsOnly_new_iff (hu : u.Formed) (hnodes : u.nodes = t.nodes ++ n :: below)
    (hbelow : ∀ b ∈ below, ¬ b.isRoot) (hroot : n.isRoot) (hkind : n.kind = .struct)
    (hnew : n.structName ∉ t.structNames) :
    u.FindsOnly n.structName n.id ↔ (n.structName ≠ "" ∨ n.name = "") ∧ t.Unlabelled n.structName := by
  have hn : n ∈ u.nodes := hnodes ▸ List.mem_append_right _ List.mem_cons_self
  have hold : ∀ m ∈ t.nodes, m.id ≠ n.id := by
    have hd := hu.forest.distinct
    rw [hnodes, List.map_append, List.nodup_append] at hd
    exact fun m hm => hd.2.2 _ (List.mem_map_of_mem hm) _ (List.mem_map_of_mem List.mem_cons_self)
  have hself : n.typeName = n.structName ↔ n.structName ≠ "" ∨ n.name = "" := by
    unfold Node.typeName
    split
    · next hempty => simp [hempty]
    · next hname => simp [hname]
  rw [← hself]
  constructor
  · rintro ⟨hfound, hone⟩
    obtain ⟨m, hm, hmid, -, -, hmname⟩ := rootAt_of_rootNamed? hfound
    refine ⟨hu.forest.eq_of_id_eq hm hn hmid ▸ hmname, fun m hm hmroot hmkind hnameless hlabel => hold m hm ?_⟩
    refine hone m (hnodes ▸ List.mem_append_left _ hm) hmroot hmkind ?_
    rw [Node.typeName, if_pos hnameless, hlabel]
  · rintro ⟨hname, hlabels⟩
    refine findsOnly_iff.2 ⟨⟨n, Adoption.mem_structsNamed.2 ⟨hn, hroot, hkind, hname⟩, rfl⟩, fun m hm => ?_⟩
    obtain ⟨hm, hmroot, hmkind, hmname⟩ := Adoption.mem_structsNamed.1 hm
    rw [hnodes] at hm
    rcases List.mem_append.1 hm with hm | hm
    · -- an old struct with this name either carries it or is labelled so
      by_cases hnameless : m.structName = ""
      · rw [Node.typeName, if_pos hnameless] at hmname
        exact absurd hmname (hlabels m hm hmroot hmkind hnameless)
      · rw [Node.typeName, if_neg hnameless] at hmname
        exact absurd (mem_structNames.2 ⟨hmname ▸ hnameless, m, hm, hmkind, hmname⟩) hnew
    · rcases List.mem_cons.1 hm with rfl | hm
      · rfl
      · exact absurd hmroot (hbelow m hm)

end Tree

/-! ## Making types -/

namespace Document

variable {τ : Type} [Transport τ] {d : Document τ} {id : NodeId}

inductive Making where
  | newStruct
  | insert (parent : NodeId) (offset : Option UInt64) (kind : Kind) (name : String)
  | copy (id : NodeId)

/-- makes a node and tells its id -/
def make (d : Document τ) : Making → Outcome (Document τ) NodeId
  | .newStruct => d.newStruct
  | .insert parent offset kind name => d.insert parent offset kind name
  | .copy id => d.copy id

/-- what a new type is named after -/
def stem (d : Document τ) : Making → String
  | .copy id => ((d.tree.find? id).map (·.typeName)).getD ""
  | _ => d.newTypeName

/-- what is made can be held, and there are ids for it -/
def Making.Fits (t : Tree) : Making → Prop
  | .newStruct => True
  | .insert parent _ _ _ => CanHold t.nodes parent
  | .copy id => (∃ r ∈ t.nodes, r.id = id) ∧ t.nextId.toNat + (t.definition id).length < Word.top

theorem make_newStruct (d : Document τ) : d.make .newStruct = (d.withTree d.tree.reserve.2).performFor
    (.insert [{ Node.rootStruct instanceName (d.tree.freeName d.newTypeName) with id := d.tree.nextId }]) d.tree.nextId := rfl

/-- a node that its parent can hold is inserted under the next new id -/
theorem make_insert {parent : NodeId} (h : d.tree.checkHolder parent = .ok ()) (offset : Option UInt64) (kind : Kind)
    (name : String) : ∃ place, d.make (.insert parent offset kind name) =
      (d.withTree d.tree.reserve.2).performFor (.insert [{ Node.field parent place kind name with
        id := d.tree.nextId,
        structName := if kind = .struct ∧ parent = 0 then d.tree.freeName d.newTypeName else "" }]) d.tree.nextId := by
  refine ⟨offset.getD (d.tree.extentOfChildren parent), ?_⟩
  rw [make, insert, h]
  rfl

/-- nodes whose insertion is answered are in the tree -/
theorem inserted_of_performFor (h : d.tree.Formed) {t : Tree} (hspent : d.tree.Spent t) {ns : List Node} {fresh : NodeId}
    (hok : ((d.withTree t).performFor (.insert ns) fresh).1 = .ok id) :
    fresh = id ∧ ((d.withTree t).performFor (.insert ns) fresh).2.tree.Formed ∧
      ((d.withTree t).performFor (.insert ns) fresh).2.tree.nodes = d.tree.nodes ++ ns := by
  cases hinsert : (d.withTree t).tree.insert ns with
  | ok u =>
    rw [performFor_of_perform (perform_insert_of_ok hinsert)] at hok ⊢
    refine ⟨Except.ok.inj hok, (hspent.formed h).insert hinsert, ?_⟩
    exact (Tree.nodes_insert hinsert).trans (congrArg (· ++ ns) hspent.nodes)
  | error e =>
    rw [performFor, perform_insert_of_error hinsert] at hok
    cases hok

/-- **What is made** are a node and copies of what is below it, behind all that is there. As a struct on the outermost level
it has a free name. -/
theorem make_ok (h : d.tree.WellFormed) {x : Making} (hok : (d.make x).1 = .ok id) :
    ∃ n below, n.id = id ∧ (d.make x).2.tree.Formed ∧ (d.make x).2.tree.nodes = d.tree.nodes ++ n :: below ∧
      (∀ b ∈ below, ¬ b.isRoot) ∧ (n.isRoot → n.kind = .struct → n.structName = d.tree.freeName (d.stem x)) := by
  cases x with
  | newStruct =>
    rw [make_newStruct] at hok ⊢
    obtain ⟨hid, hformed, hnodes⟩ := inserted_of_performFor h.toFormed d.tree.spent_reserve hok
    exact ⟨_, [], hid, hformed, hnodes, by simp, fun _ _ => rfl⟩
  | insert parent offset kind name =>
    cases hc : d.tree.checkHolder parent with
    | error e =>
      rw [make, insert, hc] at hok
      cases hok
    | ok _ =>
      obtain ⟨place, hmake⟩ := make_insert hc offset kind name
      rw [hmake] at hok ⊢
      obtain ⟨hid, hformed, hnodes⟩ := inserted_of_performFor h.toFormed d.tree.spent_reserve hok
      refine ⟨_, [], hid, hformed, hnodes, by simp, fun hroot hkind => ?_⟩
      exact if_pos ⟨hkind, beq_iff_eq.1 hroot⟩
  | copy of =>
    cases hp : d.tree.position? of with
    | none =>
      rw [make, copy, hp] at hok
      cases hok
    | some i =>
      obtain ⟨r, hi, rfl⟩ := Option.map_eq_some_iff.1 ((h.indexed of i).1 hp)
      have hr := List.mem_of_getElem? hi
      have hcopy : d.make (.copy r.id) = _ := copy_eq h hi
      rw [hcopy] at hok ⊢
      obtain ⟨hid, hformed, hnodes⟩ := inserted_of_performFor h.toFormed (d.tree.spent_renumber _) hok
      obtain ⟨below, hcons, hbelow⟩ := Tree.exists_below h.toFormed hr
      have hcopies : d.tree.copies r (d.tree.size i) =
          d.tree.copyOf r (d.tree.size i) r :: below.map (d.tree.copyOf r (d.tree.size i)) := by
        rw [Tree.copies, hcons, List.map_cons]
      refine ⟨_, _, Tree.copyOf_id.trans hid, hformed, hnodes.trans (by rw [hcopies]), fun b hb => ?_,
        fun hroot hkind => ?_⟩
      · obtain ⟨n, hn, rfl⟩ := List.mem_map.1 hb
        obtain ⟨a, ha, haid⟩ := Tree.exists_parent_of_mem_definition h.toFormed hr (hcons ▸ List.mem_cons_of_mem r hn)
          (hbelow n hn)
        rw [Node.isRoot, Tree.copyOf_parent, ← haid, beq_iff_eq]
        exact (Tree.freshFor_ne h ha).1
      · rw [Node.isRoot, Tree.copyOf_parent, Tree.freshFor_parent_root h hr] at hroot
        rw [Tree.copyOf_kind] at hkind
        have hstem : d.stem (.copy r.id) = r.typeName := by
          rw [stem, (Tree.find?_eq_some_iff h.indexed).2 ⟨hr, rfl⟩]
          rfl
        rw [hstem, Tree.copyOf_root]
        exact if_pos (by rw [Node.isRoot, hroot, hkind]; rfl)

/-- a node under the next new id is inserted if its parent can hold it -/
theorem insert_reserved (h : d.tree.WellFormed) {n : Node} (hid : n.id = d.tree.nextId)
    (hheld : CanHold d.tree.nodes n.parent) (fresh : NodeId) :
    ((d.withTree d.tree.reserve.2).performFor (.insert [n]) fresh).1 = .ok fresh := by
  have hinsert : d.tree.reserve.2.insert [n] = .ok (d.tree.reserve.2.push n) := by
    refine Tree.insert_of_held (d.tree.spent_reserve.formed h.toFormed).indexed (fun k m hk => ?_) ?_ ?_ (by simp)
    · rw [List.mem_singleton.1 (List.mem_of_getElem? hk)]
      exact hheld.mono (List.subset_append_left _ _)
    · rw [List.forall_mem_singleton, hid]
      exact (UInt64.ne_of_lt h.positive).symm
    · rw [List.forall_mem_singleton, hid]
      exact fun m hm => UInt64.ne_of_lt (h.below m hm)
  rw [performFor_of_perform (perform_insert_of_ok (d := d.withTree d.tree.reserve.2) hinsert)]

/-- what fits is made -/
theorem exists_make (h : d.tree.WellFormed) {x : Making} (hx : x.Fits d.tree) : ∃ id, (d.make x).1 = .ok id := by
  cases x with
  | newStruct =>
    rw [make_newStruct]
    exact ⟨_, insert_reserved h rfl (Or.inl rfl) _⟩
  | insert parent offset kind name =>
    obtain ⟨place, hmake⟩ := make_insert ((Tree.checkHolder_eq_ok_iff h.indexed).2 hx) offset kind name
    rw [hmake]
    refine ⟨_, insert_reserved h ?_ ?_ _⟩
    · rfl
    · exact hx
  | copy of =>
    obtain ⟨⟨r, hr, rfl⟩, hroom⟩ := hx
    obtain ⟨i, hi⟩ := List.mem_iff_getElem?.1 hr
    obtain ⟨u, σ, hok, -⟩ := copy_replicates h hi hroom
    exact ⟨_, hok⟩

/-- **What the name of a new type comes to.** Whatever fits is made. If it is a struct on the outermost level, no struct
carried its name before, and the name comes to it and to no other root struct, if and only if it is a name and no root struct
without one is labelled so. -/
theorem make_finds_iff (h : d.tree.WellFormed) (x : Making) :
    (x.Fits d.tree → ∃ id, (d.make x).1 = .ok id) ∧
    ∀ id, (d.make x).1 = .ok id → ∃ n, (d.make x).2.tree.find? id = some n ∧
      (n.isRoot → n.kind = .struct →
        n.structName = d.tree.freeName (d.stem x) ∧ n.structName ∉ d.tree.structNames ∧
        ((d.make x).2.tree.FindsOnly n.structName id ↔
          (n.structName ≠ "" ∨ n.name = "") ∧ d.tree.Unlabelled n.structName)) := by
  refine ⟨exists_make h, fun id hok => ?_⟩
  obtain ⟨n, below, rfl, hformed, hnodes, hbelow, hname⟩ := make_ok h hok
  have hn : n ∈ (d.make x).2.tree.nodes := hnodes ▸ List.mem_append_right _ List.mem_cons_self
  refine ⟨n, (Tree.find?_eq_some_iff hformed.indexed).2 ⟨hn, rfl⟩, fun hroot hkind => ?_⟩
  have hnew : n.structName ∉ d.tree.structNames := hname hroot hkind ▸ d.tree.freeName_not_mem _
  exact ⟨hname hroot hkind, hnew, Tree.findsOnly_new_iff hformed hnodes hbelow hroot hkind hnew⟩

/-- a struct that carries the name of new types, labelled as the next one, and a struct without a name -/
def namedNodes : List Node :=
  [{ Node.rootStruct "NewClass1" "NewClass" with id := 1 }, { Node.rootStruct "plain" "" with id := 2 }]

def named : Tree := namedNodes.foldl Tree.push (Tree.empty 0)

theorem ofNodes_named : Tree.ofNodes 0 namedNodes 1 = .ok named := rfl

/-- the label of a struct that carries a name does not matter, and the new struct is found; the copy of a struct without a
name is not -/
theorem make_finds_iff_named :
    let d : Document Image := ofTree named
    ((d.make .newStruct).1 = .ok 3 ∧ (d.make .newStruct).2.tree.FindsOnly "NewClass1" 3) ∧
    ((d.make (.copy 2)).1 = .ok 3 ∧ ¬ (d.make (.copy 2)).2.tree.FindsOnly "plain" 3) := by
  intro d
  have hd : d.tree.WellFormed := Tree.wellFormed_ofNodes ofNodes_named
  have hstruct : (d.make .newStruct).1 = .ok 3 := by decide
  have hcopy : (d.make (.copy 2)).1 = .ok 3 := by decide
  refine ⟨⟨hstruct, ?_⟩, hcopy, ?_⟩
  · obtain ⟨n, hn, hall⟩ := (make_finds_iff hd .newStruct).2 3 hstruct
    obtain rfl : { Node.rootStruct "instance" "NewClass1" with id := 3 } = n := Option.some.inj hn
    exact (hall rfl rfl).2.2.2 (by decide)
  · obtain ⟨n, hn, hall⟩ := (make_finds_iff hd (.copy 2)).2 3 hcopy
    obtain rfl : { Node.rootStruct "plain" "plain" with id := 3 } = n := Option.some.inj hn
    exact fun hfinds => absurd ((hall rfl rfl).2.2.1 hfinds) (by decide)

/-- a struct without a name, labelled like new types -/
def labelled : Tree := [{ Node.rootStruct "NewClass" "" with id := 1 }].foldl Tree.push (Tree.empty 0)

/-- **A new type need not be found by its name.** No struct carries the name, so the new one gets it, whether it is made from
nothing or copied; but the one that is labelled so is found. -/
theorem make_shadowed :
    let d : Document Image := ofTree labelled
    d.tree.WellFormed ∧ d.tree.structNames = [] ∧
    ∀ x ∈ [Making.newStruct, .copy 1],
      (d.make x).1 = .ok 2 ∧ ((d.make x).2.tree.find? 2).map (·.structName) = some "NewClass" ∧
      (d.make x).2.tree.rootNamed? "NewClass" = some 1 := by
  intro d
  have hlabelled : Tree.ofNodes 0 [{ Node.rootStruct "NewClass" "" with id := 1 }] 1 = .ok d.tree := rfl
  refine ⟨Tree.wellFormed_ofNodes hlabelled, by decide, ?_⟩
  rw [List.forall_mem_cons, List.forall_mem_singleton]
  exact ⟨by decide, by decide⟩

end Document

end ByteAtlas
