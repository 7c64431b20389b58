/-
The tags that members name. What a struct contains is found by ids; the tag in the declaration of a member is made of a name,
in one of three ways. A struct with members is declared by its own name, one without by the name of what it refers to. A row of
structs is declared by a name that it carries itself, if there is one, and only then by that of what it refers to.

- `StandsFor`: the struct whose bytes a member is declared for.
- `nameless`: a tree without its names. `relabelled_run` says that labels and type names can be changed in any order without
  changing anything else; what is declared and what stands for what stays (`declared_nameless`, `standsFor_nameless`).
- `names_tag_iff`: after any such changes a member names the tag of the struct that it stands for, unless it is a row that
  carries another name.
- `row_names_old_tag`: the row does so as soon as the struct is renamed.
-/
import ByteAtlas.Proofs.Declarations.Tags
import ByteAtlas.Proofs.Definition.Copies
import ByteAtlas.Proofs.Document.Steps

namespace ByteAtlas

/-! ## Trees without names -/

def Node.nameless (n : Node) : Node := { n with name := "", structName := "" }

namespace Tree

variable {t u : Tree} {c i x y : Nat} {m n : Node}

/-- the nodes and their places, without names -/
def nameless (t : Tree) : Tree := ⟨0, t.nodes.map Node.nameless, t.places, 0⟩

/-- the struct whose bytes a member is declared for: itself if it has members, or else what it refers to -/
inductive StandsFor (t : Tree) (c : Nat) : Nat → Prop
  | nested {m k : Node} : t.nodes[c]? = some m → m.kind = .struct → k ∈ t.nodes → k.parent = m.id → StandsFor t c c
  | embedded {y : Nat} {m : Node} : t.nodes[c]? = some m → m.kind = .struct → (∀ k ∈ t.nodes, k.parent ≠ m.id) →
      t.RefersTo m y → StandsFor t c y
  | row {y : Nat} {m : Node} : t.nodes[c]? = some m → m.kind = .array → m.elementKind = .struct → t.RefersTo m y →
      StandsFor t c y

section Nameless

variable (t : Tree)

@[simp] theorem getElem?_nameless (i : Nat) : t.nameless.nodes[i]? = (t.nodes[i]?).map Node.nameless :=
  List.getElem?_map

@[simp] theorem length_nameless : t.nameless.nodes.length = t.nodes.length := List.length_map _

@[simp] theorem offsetAt_nameless : t.nameless.offsetAt = t.offsetAt := by
  funext i
  simp only [offsetAt, getElem?_nameless, Option.map_map]
  rfl

@[simp] theorem children_nameless (parent : NodeId) : t.nameless.children parent = t.children parent := by
  simp only [children, heldBy, offsetAt_nameless, length_nameless, getElem?_nameless, Option.any_map]
  rfl

theorem any_kind_nameless (i : Nat) (k : Kind) :
    (t.nameless.nodes[i]?).any (fun n => n.kind == k) = (t.nodes[i]?).any fun n => n.kind == k := by
  rw [getElem?_nameless, Option.any_map]
  rfl

@[simp] theorem referredStruct_nameless (n : Node) : t.nameless.referredStruct n.nameless = t.referredStruct n := by
  simp only [referredStruct, any_kind_nameless]
  rfl

@[simp] theorem contained_nameless : t.nameless.contained = t.contained := by
  funext c
  rw [contained, contained, getElem?_nameless]
  cases t.nodes[c]? with
  | none => rfl
  | some n => simp only [Option.map_some, children_nameless, referredStruct_nameless]; rfl

@[simp] theorem pointedAt_nameless : t.nameless.pointedAt = t.pointedAt := by
  funext c
  rw [pointedAt, pointedAt, getElem?_nameless]
  cases t.nodes[c]? with
  | none => rfl
  | some n => simp only [Option.map_some, referredStruct_nameless]; rfl

theorem survey_nameless (depth : Nat) : t.nameless.survey depth = t.survey depth := by
  induction depth with
  | zero => rfl
  | succ depth ih =>
    funext s i
    rw [survey, survey, getElem?_nameless]
    cases t.nodes[i]? with
    | none => rfl
    | some n => simp only [Option.map_some, children_nameless, contained_nameless, pointedAt_nameless, ih]; rfl

/-- what is declared does not depend on names -/
theorem declared_nameless (scope : Option NodeId) : t.nameless.declared scope = t.declared scope := by
  have hstarts : t.nameless.starts scope = t.starts scope := by
    cases scope with
    | some id => simp only [starts, any_kind_nameless]; rfl
    | none => simp only [starts, structRoots, roots, any_kind_nameless, children_nameless]
  rw [declared, declared, declarationOrder, declarationOrder, hstarts, survey_nameless, length_nameless]

theorem refersTo_nameless (m : Node) : t.nameless.RefersTo m.nameless y ↔ t.RefersTo m y := by
  simp only [RefersTo, getElem?_nameless, Option.map_eq_some_iff]
  constructor
  · rintro ⟨hz, -, ⟨d, hd, rfl⟩, hid, hk⟩
    exact ⟨hz, d, hd, hid, hk⟩
  · rintro ⟨hz, d, hd, hid, hk⟩
    exact ⟨hz, d.nameless, ⟨d, hd, rfl⟩, hid, hk⟩

/-- what a member stands for does not depend on names -/
theorem standsFor_nameless : t.nameless.StandsFor c y ↔ t.StandsFor c y := by
  constructor
  · intro h
    cases h with
    | nested hm hk hchild hp =>
      obtain ⟨m, hread, rfl⟩ := Option.map_eq_some_iff.1 ((t.getElem?_nameless _).symm.trans hm)
      obtain ⟨k, hmem, rfl⟩ := List.mem_map.1 hchild
      exact .nested hread hk hmem hp
    | embedded hm hk hno hy =>
      obtain ⟨m, hread, rfl⟩ := Option.map_eq_some_iff.1 ((t.getElem?_nameless _).symm.trans hm)
      exact .embedded hread hk (fun k hchild => hno k.nameless (List.mem_map_of_mem hchild)) ((t.refersTo_nameless m).1 hy)
    | row hm hk helement hy =>
      obtain ⟨m, hread, rfl⟩ := Option.map_eq_some_iff.1 ((t.getElem?_nameless _).symm.trans hm)
      exact .row hread hk helement ((t.refersTo_nameless m).1 hy)
  · intro h
    have hread : ∀ {m}, t.nodes[c]? = some m → t.nameless.nodes[c]? = some m.nameless := fun hm => by
      rw [getElem?_nameless, hm, Option.map_some]
    cases h with
    | nested hm hk hchild hp => exact .nested (hread hm) hk (List.mem_map_of_mem hchild) hp
    | embedded hm hk hno hy =>
      exact .embedded (hread hm) hk (List.forall_mem_map.2 fun k hchild => hno k hchild) ((t.refersTo_nameless _).2 hy)
    | row hm hk helement hy => exact .row (hread hm) hk helement ((t.refersTo_nameless _).2 hy)

end Nameless

/-! ## The tag of a member -/

/-- what a member stands for, the struct that has the member contains -/
theorem StandsFor.contains (h : t.StandsFor c y) (hm : t.nodes[c]? = some m) (hmember : t.MemberOf x m) :
    t.Contains x y := by
  cases h with
  | nested hm' hk hchild hp =>
    obtain rfl := Option.some.inj (hm.symm.trans hm')
    exact .nested hmember hk hchild hp hm
  | embedded hm' hk hno hy =>
    obtain rfl := Option.some.inj (hm.symm.trans hm')
    exact .embedded hmember hk hno hy
  | row hm' hk _ hy =>
    obtain rfl := Option.some.inj (hm.symm.trans hm')
    exact .row hmember hk hy

def declaredName (t : Tree) (m : Node) : String := if m.kind = .array then t.elementName m else t.memberTag m

/-- a row carries a name of its own, and not one that makes the tag of the struct at a position -/
def Misnames (t : Tree) (m : Node) (y : Nat) : Prop :=
  m.kind = .array ∧ m.structName ≠ "" ∧ identifier m.structName ≠ t.tagAt y

theorem RefersTo.typeNameOf (h : t.Formed) (hy : t.RefersTo m y) :
    ∃ d : Node, t.typeNameOf m.ref = some d.typeName ∧ t.tagAt y = identifier d.typeName := by
  obtain ⟨-, d, hd, hid, -⟩ := hy
  exact ⟨d, hid ▸ typeNameOf_of_mem h (List.mem_of_getElem? hd), tagAt_of_getElem? hd⟩

/-- **A member that stands for a struct is declared by the tag of that struct, unless it carries another name.** -/
theorem identifier_declaredName_iff (h : t.Formed) (hm : t.nodes[c]? = some m) (hy : t.StandsFor c y) :
    identifier (t.declaredName m) = t.tagAt y ↔ ¬ t.Misnames m y := by
  cases hy with
  | nested hm' hk hchild hp =>
    obtain rfl := Option.some.inj (hm.symm.trans hm')
    have hempty : ¬ (t.children m.id).isEmpty = true := fun he => children_isEmpty_iff.1 he _ hchild hp
    simp [declaredName, Misnames, hk, memberTag, hempty, tagAt_of_getElem? hm]
  | embedded hm' hk hno hy =>
    obtain rfl := Option.some.inj (hm.symm.trans hm')
    obtain ⟨d, hname, htag⟩ := hy.typeNameOf h
    simp [declaredName, Misnames, hk, memberTag, children_isEmpty_iff.2 hno, hname, htag]
  | row hm' hk helement hy =>
    obtain rfl := Option.some.inj (hm.symm.trans hm')
    obtain ⟨d, hname, htag⟩ := hy.typeNameOf h
    by_cases hstored : m.structName = ""
    · simp [declaredName, Misnames, hk, elementName, hstored, hname, htag]
    · simp [declaredName, Misnames, hk, helement, elementName, hstored]

/-- the declaration of a member that stands for a struct starts with a tag -/
theorem exists_memberText (hm : t.nodes[c]? = some m) (hy : t.StandsFor c y) :
    ∃ rest, t.memberText m = "struct " ++ identifier (t.declaredName m) ++ " " ++ rest := by
  cases hy with
  | nested hm' hk | embedded hm' hk =>
    obtain rfl := Option.some.inj (hm.symm.trans hm')
    exact ⟨m.memberName, by simp [memberText, hk, declaredName]⟩
  | row hm' hk helement =>
    obtain rfl := Option.some.inj (hm.symm.trans hm')
    exact ⟨m.memberName ++ bracketed m.arrayLen, by simp [memberText, hk, helement, declaredName, String.append_assoc]⟩

end Tree

/-! ## Changing names -/

namespace Document

variable {τ : Type} [Transport τ] {d : Document τ}

/-- a request to change a label or a type name -/
inductive Request.Relabels : Request → Prop
  | rename (id : NodeId) (name : String) : Relabels (.rename id name)
  | nameStruct (id : NodeId) (name : String) : Relabels (.nameStruct id name)

/-- an edit of names in place leaves a formed tree, and all but names as it was -/
theorem relabelled_perform (h : d.tree.Formed) {e : Edit} {id : NodeId} {f : Node → Node} (hf : Node.Plain f)
    (hname : ∀ n, (f n).nameless = n.nameless) (he : ∀ s : Scene τ, e.apply s = s.onTree fun t => t.modify id f) :
    (d.perform e).2.tree.Formed ∧ (d.perform e).2.tree.nameless = d.tree.nameless := by
  have happly := he d.scene
  rw [Scene.onTree, show d.scene.tree = d.tree from rfl] at happly
  cases hu : d.tree.modify id f with
  | error err =>
    rw [hu] at happly
    rw [perform_of_error happly]
    exact ⟨h, rfl⟩
  | ok u =>
    rw [hu] at happly
    rw [perform_of_ok happly]
    refine ⟨h.modifyField hu hf, ?_⟩
    obtain ⟨i, -, rfl⟩ := Tree.modify_eq_ok_iff.1 hu
    have hnodes : (d.tree.nodes.modify i f).map Node.nameless = d.tree.nodes.map Node.nameless := by
      apply List.ext_getElem?
      intro j
      rw [List.getElem?_map, List.getElem?_map, List.getElem?_modify]
      cases d.tree.nodes[j]? with
      | none => simp
      | some n => by_cases e : i = j <;> simp [e, hname]
    exact congrArg (fun nodes => (⟨0, nodes, d.tree.places, 0⟩ : Tree)) hnodes

theorem relabelled_after (h : d.tree.Formed) {r : Request} (hr : r.Relabels) :
    (d.after r).tree.Formed ∧ (d.after r).tree.nameless = d.tree.nameless := by
  cases hr with
  | rename id name =>
    simp only [after, ask, rename, withNode]
    cases d.tree.find? id with
    | none => exact ⟨h, rfl⟩
    | some n =>
      exact relabelled_perform (f := fun n => { n with name }) h (fun _ => ⟨rfl, rfl, rfl⟩) (fun _ => rfl) fun _ => rfl
  | nameStruct id name =>
    simp only [after, ask, nameStruct, withNode]
    cases d.tree.find? id with
    | none => exact ⟨h, rfl⟩
    | some n =>
      exact relabelled_perform (f := fun n => { n with structName := name }) h (fun _ => ⟨rfl, rfl, rfl⟩) (fun _ => rfl)
        fun _ => rfl

/-- **Changes of names change nothing else**, in whatever order they are asked for. -/
theorem relabelled_run {rs : List Request} (h : d.tree.Formed) (hrs : ∀ r ∈ rs, r.Relabels) :
    (rs.foldl after d).tree.Formed ∧ (rs.foldl after d).tree.nameless = d.tree.nameless := by
  induction rs generalizing d with
  | nil => exact ⟨h, rfl⟩
  | cons r rs ih =>
    obtain ⟨hr, hrs⟩ := List.forall_mem_cons.1 hrs
    obtain ⟨hformed, hname⟩ := relabelled_after h hr
    obtain ⟨hrun, hnames⟩ := ih hformed hrs
    exact ⟨hrun, hnames.trans hname⟩

/-- **Members name the tags of the structs that they stand for, unless they are rows that carry another name.** Let labels and
type names be changed in any way. The tree stays formed, the same structs are declared, and members stand for the same ones.
If a member of a declared struct stands for a struct, this one is declared with it, and the declaration of the member names a
tag. That is the tag of the struct if and only if the member is not a row with a type name of its own that makes another
tag. -/
theorem names_tag_iff {rs : List Request} (h : d.tree.Formed) (hrs : ∀ r ∈ rs, r.Relabels) (scope : Option NodeId) :
    let t := (rs.foldl after d).tree
    t.Formed ∧ t.declared scope = d.tree.declared scope ∧ (∀ c y, t.StandsFor c y ↔ d.tree.StandsFor c y) ∧
    ∀ x ∈ t.declared scope, ∀ c y m, t.MemberOf x m → t.nodes[c]? = some m → t.StandsFor c y →
      y ∈ t.declared scope ∧ 1 ≤ timesDefined (t.tagAt y) (t.rendered scope) ∧
      ∃ tag rest, t.memberText m = "struct " ++ tag ++ " " ++ rest ∧ (∀ l ∈ tag.toList, isIdentifierChar l) ∧
        (tag = t.tagAt y ↔ ¬ (m.kind = .array ∧ m.structName ≠ "" ∧ identifier m.structName ≠ t.tagAt y)) := by
  intro t
  obtain ⟨hformed, hnames⟩ : t.Formed ∧ t.nameless = d.tree.nameless := relabelled_run h hrs
  refine ⟨hformed, ?_, fun c y => ?_, fun x hx c y m hmember hm hy => ?_⟩
  · rw [← Tree.declared_nameless, hnames, Tree.declared_nameless]
  · rw [← Tree.standsFor_nameless, hnames, Tree.standsFor_nameless]
  have hdeclared : y ∈ t.declared scope := by
    obtain ⟨r, hr, hway⟩ := (Tree.mem_declared_iff hformed.indexed scope).1 hx
    exact (Tree.mem_declared_iff hformed.indexed scope).2 ⟨r, hr, hway.tail (.inl (hy.contains hm hmember))⟩
  obtain ⟨rest, htext⟩ := Tree.exists_memberText hm hy
  refine ⟨hdeclared, ?_, _, rest, htext, fun l hl => isIdentifierChar_of_mem hl,
    Tree.identifier_declaredName_iff hformed hm hy⟩
  rw [Tree.timesDefined_rendered hformed.indexed]
  exact List.countP_pos_iff.2 ⟨y, hdeclared, by simp⟩

/-- a struct with a row of two items, which says what they are called, and the item -/
def bagNodes : List Node :=
  [{ Node.rootStruct "bag" "Bag" with id := 1 },
    { Node.array 1 0 "items" .struct 2 with id := 2, structName := "Item", ref := 3 },
    { Node.rootStruct "item" "Item" with id := 3 }, { Node.field 3 0 .uint8 "weight" with id := 4 }]

def bag : Document Image := ofTree (bagNodes.foldl Tree.push (Tree.empty 0))

theorem wellFormed_bag : bag.tree.WellFormed :=
  Tree.wellFormed_ofNodes (show Tree.ofNodes 0 bagNodes 1 = .ok bag.tree from rfl)

theorem bag_standsFor : bag.tree.StandsFor 1 2 :=
  .row (m := bagNodes[1]) rfl rfl rfl ⟨by decide, bagNodes[2], rfl, rfl, rfl⟩

/-- an item and a row that are both named anew agree -/
theorem names_tag_iff_bag : let t := ([.nameStruct 3 "Part", .nameStruct 2 "Part"].foldl after bag).tree
    t.Formed ∧ t.StandsFor 1 2 ∧ ∃ m ∈ t.nodes, m.id = 2 ∧ ∃ tag rest,
      t.memberText m = "struct " ++ tag ++ " " ++ rest ∧ tag = t.tagAt 2 := by
  intro t
  have hrs : ∀ r ∈ [Request.nameStruct 3 "Part", .nameStruct 2 "Part"], r.Relabels := by
    simp only [List.forall_mem_cons]
    exact ⟨.nameStruct 3 "Part", .nameStruct 2 "Part", nofun⟩
  obtain ⟨hformed, -, hstands, hmembers⟩ := names_tag_iff wellFormed_bag.toFormed hrs none
  have hm : t.nodes[1]? = some { bagNodes[1] with structName := "Part" } := rfl
  have hmember : t.MemberOf 0 { bagNodes[1] with structName := "Part" } := ⟨List.mem_of_getElem? hm, bagNodes[0], rfl, rfl⟩
  obtain ⟨-, -, tag, rest, htext, -, hiff⟩ :=
    hmembers 0 (by decide) 1 2 _ hmember hm ((hstands 1 2).2 bag_standsFor)
  exact ⟨hformed, (hstands 1 2).2 bag_standsFor, _, List.mem_of_getElem? hm, rfl, tag, rest, htext,
    hiff.2 fun hmis => hmis.2.2 (by decide)⟩

/-- **A row goes on naming the tag that its items had.** -/
theorem row_names_old_tag : bag.tree.WellFormed ∧ bag.tree.StandsFor 1 2 ∧ bag.tree.tagAt 2 = "Item" ∧
    bag.tree.memberText bagNodes[1] = "struct Item items[2]" ∧
    let t := (bag.after (.nameStruct 3 "Part")).tree
    t.StandsFor 1 2 ∧ t.tagAt 2 = "Part" ∧ t.nodes[1]? = some bagNodes[1] ∧
      t.memberText bagNodes[1] = "struct Item items[2]" ∧ timesDefined "Item" (t.rendered none) = 0 := by
  refine ⟨wellFormed_bag, bag_standsFor, by decide, by decide, ?_, by decide, by decide, by decide, ?_⟩
  · exact .row (m := bagNodes[1]) rfl rfl rfl ⟨by decide, { bagNodes[2] with structName := "Part" }, rfl, rfl, rfl⟩
  · have hformed := (relabelled_after wellFormed_bag.toFormed (.nameStruct 3 "Part")).1
    rw [Tree.timesDefined_rendered hformed.indexed]
    decide

end Document

end ByteAtlas
