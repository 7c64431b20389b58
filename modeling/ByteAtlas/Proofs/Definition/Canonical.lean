/-
The bytes of a canonical form say everything about it.

An item is a map with nine keys that are always the same, so what delimits each value delimits the item
(`delimits_itemBytes`), and the list of items delimits them all. A canonical form can thus be told from its bytes, and two
definitions have the same bytes if and only if they have the same shape (`Tree.canonicalBytes_eq_iff`). The length of a
text is written as a machine word, which is why no text may be longer than one can say (`Tree.HoldsTexts`).
-/
import ByteAtlas.Proofs.Cbor
import ByteAtlas.Proofs.Definition.Shape
import ByteAtlas.Proofs.Tree.Building

namespace ByteAtlas

namespace Definition

open Cbor (Delimits Holds)

variable {r s : Bytes}

/-! ## Values -/

theorem holds_name (k : Kind) : Holds k.name := by
  cases k <;> decide

theorem delimits_kind : Delimits (fun _ : Kind => True) (fun k => Cbor.text k.name) := by
  intro k l _ _ r s h
  obtain ⟨hname, hrs⟩ := Cbor.delimits_text _ _ (holds_name k) (holds_name l) r s h
  have hkind : Kind.ofName? k.name = Kind.ofName? l.name := by rw [hname]
  rw [Kind.ofName?_name, Kind.ofName?_name] at hkind
  exact ⟨Option.some.inj hkind, hrs⟩

def parentBytes (p : Option Nat) : Bytes := (p.map Cbor.nat).getD Cbor.null

/-- no number starts like nothing -/
theorem nat_append_ne_null (v : Nat) : Cbor.nat v ++ r ≠ Cbor.null ++ s := by
  intro h
  rw [Cbor.nat, Cbor.head_eq] at h
  have hfirst := congrArg UInt8.toNat (List.cons.inj h).1
  rw [UInt8.toNat_ofNat'] at hfirst
  have hlow := Cbor.low_lt v
  have hnull : (0xf6 : UInt8).toNat = 246 := rfl
  omega

theorem delimits_parent : Delimits (fun p : Option Nat => ∀ v, p = some v → v < UInt64.size) parentBytes := by
  intro p q hp hq r s h
  cases p with
  | none =>
    cases q with
    | none => exact ⟨rfl, List.append_cancel_left h⟩
    | some w => exact absurd h.symm (nat_append_ne_null w)
  | some v =>
    cases q with
    | none => exact absurd h (nat_append_ne_null v)
    | some w =>
      obtain ⟨rfl, hrs⟩ := Cbor.delimits_nat v w (hp v rfl) (hq w rfl) r s h
      exact ⟨rfl, hrs⟩

/-- a reference whose place and name can be written -/
def Target.Writable : Target → Prop
  | none => True
  | inside p => p < UInt64.size
  | named name => Holds name

/-- no map starts like a text -/
theorem text_append_ne_map (name : String) {key : String} {value : Bytes} :
    Cbor.text name ++ r ≠ Cbor.map [(key, value)] ++ s := by
  intro h
  have hone : Cbor.head 5 [(key, value)].length = [0xa1] := rfl
  rw [Cbor.text, Cbor.map, hone, Cbor.head_eq] at h
  have hfirst := congrArg UInt8.toNat (List.cons.inj h).1
  rw [UInt8.toNat_ofNat'] at hfirst
  have hlow := Cbor.low_lt (Text.Utf8.encode name.toList).length
  have hmap : (0xa1 : UInt8).toNat = 161 := rfl
  omega

theorem map_one_append (key : String) (value r : Bytes) :
    Cbor.map [(key, value)] ++ r = Cbor.head 5 1 ++ (Cbor.text key ++ (value ++ r)) := by
  simp [Cbor.map]

/-- two maps of one member have the same key -/
theorem key_eq_of_map_one {key key' : String} {value value' : Bytes} (hk : Holds key) (hk' : Holds key')
    (h : Cbor.map [(key, value)] ++ r = Cbor.map [(key', value')] ++ s) : key = key' ∧ value ++ r = value' ++ s := by
  rw [map_one_append, map_one_append] at h
  exact Cbor.delimits_text _ _ hk hk' _ _ (List.append_cancel_left h)

theorem delimits_target : Delimits Target.Writable Target.bytes := by
  have hinternal : Holds "Internal" := by decide
  have hnamed : Holds "Named" := by decide
  intro x y hx hy r s h
  cases x with
  | none =>
    cases y with
    | none => exact ⟨rfl, List.append_cancel_left h⟩
    | inside q => exact absurd h (text_append_ne_map "None")
    | named name => exact absurd h (text_append_ne_map "None")
  | inside p =>
    cases y with
    | none => exact absurd h.symm (text_append_ne_map "None")
    | inside q =>
      obtain ⟨-, hvalue⟩ := key_eq_of_map_one hinternal hinternal h
      obtain ⟨rfl, hrs⟩ := Cbor.delimits_nat p q hx hy r s hvalue
      exact ⟨rfl, hrs⟩
    | named name => exact absurd (key_eq_of_map_one hinternal hnamed h).1 (by decide)
  | named name =>
    cases y with
    | none => exact absurd h.symm (text_append_ne_map "None")
    | inside q => exact absurd (key_eq_of_map_one hnamed hinternal h).1 (by decide)
    | named name' =>
      obtain ⟨-, hvalue⟩ := key_eq_of_map_one hnamed hnamed h
      obtain ⟨rfl, hrs⟩ := Cbor.delimits_text name name' hx hy r s hvalue
      exact ⟨rfl, hrs⟩

/-! ## Items -/

/-- an item whose texts and places can be written -/
structure Item.Writable (i : Item) : Prop where
  parent : ∀ v, i.parent = some v → v < UInt64.size
  name : Holds i.name
  structName : Holds i.structName
  target : i.target.Writable

/-- **The bytes of an item tell the item and where it ends.** -/
theorem delimits_itemBytes : Delimits Item.Writable Item.bytes := by
  intro i j hi hj r s h
  simp only [Item.bytes, Cbor.map, List.length_cons, List.length_nil, List.flatMap_cons, List.flatMap_nil,
    List.append_nil, List.append_assoc] at h
  have h := List.append_cancel_left h
  obtain ⟨hparent, h⟩ := delimits_parent.member hi.parent hj.parent h
  obtain ⟨hkind, h⟩ := delimits_kind.member trivial trivial h
  obtain ⟨hname, h⟩ := Cbor.delimits_text.member hi.name hj.name h
  obtain ⟨hoffset, h⟩ := Cbor.delimits_word.member trivial trivial h
  obtain ⟨harrayLen, h⟩ := Cbor.delimits_word.member trivial trivial h
  obtain ⟨helementKind, h⟩ := delimits_kind.member trivial trivial h
  obtain ⟨hstructName, h⟩ := Cbor.delimits_text.member hi.structName hj.structName h
  obtain ⟨htextLen, h⟩ := Cbor.delimits_word.member trivial trivial h
  obtain ⟨htarget, h⟩ := delimits_target.member hi.target hj.target h
  refine ⟨?_, h⟩
  cases i
  cases j
  simp only [Item.mk.injEq]
  exact ⟨hparent, hkind, hname, hoffset, harrayLen, helementKind, hstructName, htextLen, htarget⟩

end Definition

namespace Tree

open Definition (SameShape Renames)

/-- the number of bytes of each name is a machine word, as it is for every text in memory -/
def HoldsTexts (t : Tree) : Prop := ∀ n ∈ t.nodes, Cbor.Holds n.name ∧ Cbor.Holds n.structName

instance (t : Tree) : Decidable t.HoldsTexts := inferInstanceAs (Decidable (∀ n ∈ t.nodes, _))

variable {t u : Tree} {r s : Node}

/-- there are fewer nodes than words, since each has an id of its own and none has zero -/
theorem length_nodes_lt (h : t.Formed) : t.nodes.length < UInt64.size := by
  have hnodup : (t.nodes.map fun n => n.id.toNat).Nodup := by
    have hids := h.forest.distinct.map fun _ _ e => UInt64.toNat_inj.1 e
    rwa [List.map_map] at hids
  have hsub : (t.nodes.map fun n => n.id.toNat) ⊆ List.range' 1 Word.top := by
    intro v hv
    obtain ⟨n, hn, rfl⟩ := List.mem_map.1 hv
    have hpos : n.id.toNat ≠ 0 := fun e => h.forest.nonzero n hn (UInt64.toNat_inj.1 e)
    have htop := Word.toNat_le_top n.id
    rw [List.mem_range'_1]
    omega
  have hle := (hnodup.subperm hsub).length_le
  rw [List.length_map, List.length_range'] at hle
  exact Nat.lt_of_le_of_lt hle (by decide)

theorem length_outline_lt (h : t.Formed) (hr : r ∈ t.nodes) : (t.outline r).length < UInt64.size := by
  have hsub : t.outline r ⊆ t.nodes := fun n hn => ((mem_outline h hr).1 hn).1
  have hle := ((nodup_map_id_outline h hr).of_map.subperm hsub).length_le
  exact Nat.lt_of_le_of_lt hle (length_nodes_lt h)

theorem writable_items (h : t.Formed) (hr : r ∈ t.nodes) (ht : t.HoldsTexts) : ∀ i ∈ t.items r.id, i.Writable := by
  intro i hi
  obtain ⟨k, hk⟩ := List.mem_iff_getElem?.1 hi
  rw [Definition.items_getElem? h hr] at hk
  obtain ⟨n, hn, rfl⟩ := Option.map_eq_some_iff.1 hk
  have hlen := length_outline_lt h hr
  have hplace : ∀ id p, ((t.outline r).map (·.id)).idxOf? id = some p → p < UInt64.size := by
    intro id p hp
    obtain ⟨m, hm, -⟩ := (Definition.idxOf?_map_id h hr).1 hp
    exact Nat.lt_trans (List.getElem?_eq_some_iff.1 hm).1 hlen
  obtain ⟨hname, hstruct⟩ := ht n ((mem_outline h hr).1 (List.mem_of_getElem? hn)).1
  have htarget : (t.targetIn ((t.outline r).map (·.id)) n.ref).Writable := by
    have hx : Definition.RefersTo t (t.outline r) n.ref (t.targetIn ((t.outline r).map (·.id)) n.ref) :=
      (Definition.targetIn_eq_iff h hr).1 rfl
    cases hcase : t.targetIn ((t.outline r).map (·.id)) n.ref with
    | none => trivial
    | inside p =>
      rw [hcase] at hx
      cases hx with
      | inside hm _ => exact Nat.lt_trans (List.getElem?_eq_some_iff.1 hm).1 hlen
    | named name =>
      rw [hcase] at hx
      cases hx with
      | @named m hm _ _ =>
        change Cbor.Holds m.typeName
        unfold Node.typeName
        split
        · exact (ht m hm).1
        · exact (ht m hm).2
  have hempty : Cbor.Holds "" := by decide
  unfold Definition.itemAt
  split
  · exact ⟨by simp, hempty, hstruct, htarget⟩
  · exact ⟨fun v hv => hplace n.parent v hv, hname, hstruct, htarget⟩

theorem canonicalBytes_eq_some (h : t.Formed) (hr : r ∈ t.nodes) :
    t.canonicalBytes r.id = some (Cbor.list ((t.items r.id).map Definition.Item.bytes)) := by
  have hpos : 0 < (t.items r.id).length := by
    rw [Definition.length_items h hr, outline_eq_cons h hr]
    exact Nat.succ_pos _
  rw [canonicalBytes]
  cases hitems : t.items r.id with
  | nil => simp [hitems] at hpos
  | cons first rest => rfl

/-- **Two definitions have the same canonical bytes if and only if they have the same shape.** So it does not matter which
ids the nodes have, where a tree stands in memory, what is folded, or where the root stands under which name. -/
theorem canonicalBytes_eq_iff (ht : t.Formed) (hu : u.Formed) (hr : r ∈ t.nodes) (hs : s ∈ u.nodes)
    (ht' : t.HoldsTexts) (hu' : u.HoldsTexts) :
    (t.canonicalBytes r.id = u.canonicalBytes s.id ↔ SameShape t r u s) ∧
    ∀ (f : NodeId → NodeId) (σ : Node → Node), Function.Injective f → f 0 = 0 → u.nodes = t.nodes.map σ →
      (∀ n ∈ t.nodes, Renames f r n (σ n)) → σ r = s → t.canonicalBytes r.id = u.canonicalBytes s.id := by
  have hiff : t.canonicalBytes r.id = u.canonicalBytes s.id ↔ SameShape t r u s := by
    rw [← Definition.items_eq_iff ht hu hr hs, canonicalBytes_eq_some ht hr, canonicalBytes_eq_some hu hs,
      Option.some_inj]
    constructor
    · refine Definition.delimits_itemBytes.list (writable_items ht hr ht') (writable_items hu hs hu') ?_ ?_
      · exact Definition.length_items ht hr ▸ length_outline_lt ht hr
      · exact Definition.length_items hu hs ▸ length_outline_lt hu hs
    · intro h
      rw [h]
  refine ⟨hiff, fun f σ hf h0 hnodes hσ e => hiff.2 ?_⟩
  rw [← e]
  exact Renames.sameShape ht hu hr hf h0 hnodes hσ

/-- a list that points at itself and at what owns it -/
def ownedNodes : List Node :=
  [{ Node.rootStruct "owner" "Owner" with id := 9 }, { Node.rootStruct "list" "List" with id := 1 },
    { Node.field 1 8 .pointer64 "next" with id := 2, ref := 1 }, { Node.field 1 0 .pointer64 "owner" with id := 3, ref := 9 }]

/-- two ids change places, the list is held by its owner under another name, and its nodes are folded -/
def rehouse (n : Node) : Node :=
  let swapped := { n with id := Equiv.swap 1 7 n.id, ref := Equiv.swap 1 7 n.ref, collapsed := !n.collapsed }
  if n.id = 1 then { swapped with parent := 9, name := "inner", offset := 16 }
  else { swapped with parent := Equiv.swap 1 7 n.parent }

/-- the tree of these nodes, and the one with the list held by its owner -/
def owned : Tree := ownedNodes.foldl push (empty 0)
def rehoused : Tree := (ownedNodes.map rehouse).foldl push (empty 4096)

theorem canonicalBytes_eq_iff_rehoused :
    ofNodes 0 ownedNodes 1 = .ok owned ∧ ofNodes 4096 (ownedNodes.map rehouse) 1 = .ok rehoused ∧
    owned.canonicalBytes 1 = rehoused.canonicalBytes 7 ∧
    ∃ r ∈ owned.nodes, ∃ s ∈ rehoused.nodes, r.id = 1 ∧ s.id = 7 ∧ SameShape owned r rehoused s := by
  have howned : ofNodes 0 ownedNodes 1 = .ok owned := rfl
  have hrehoused : ofNodes 4096 (ownedNodes.map rehouse) 1 = .ok rehoused := by decide
  let r : Node := { Node.rootStruct "list" "List" with id := 1 }
  let s : Node := { Node.rootStruct "inner" "List" with id := 7, parent := 9, offset := 16, collapsed := true }
  have hr : r ∈ owned.nodes := by decide
  have hs : s ∈ rehoused.nodes := by decide
  have hσ : ∀ n ∈ owned.nodes, Renames (Equiv.swap 1 7) r n (rehouse n) := by
    intro n hn
    change n ∈ ownedNodes at hn
    simp only [ownedNodes, List.mem_cons, List.not_mem_nil, or_false] at hn
    rcases hn with rfl | rfl | rfl | rfl <;> exact ⟨by decide, by decide⟩
  obtain ⟨hiff, hrenamed⟩ := canonicalBytes_eq_iff (wellFormed_ofNodes howned).toFormed
    (wellFormed_ofNodes hrehoused).toFormed hr hs (by decide) (by decide)
  have hbytes := hrenamed (Equiv.swap 1 7) rehouse (Equiv.injective _) (by decide) rfl hσ rfl
  exact ⟨howned, hrehoused, hbytes, r, hr, s, hs, rfl, rfl, hiff.1 hbytes⟩

end Tree

end ByteAtlas
