/-
Stored trees, read back. Kinds and nodes are read from the JSON that is written for them (`Kind.ofJson?_toJson`,
`Node.ofJson?_toJson`), so what is stored of a tree is what it consists of (`Tree.ofJson?_toJson`). Asking once more
whether it is a tree changes nothing (`Tree.ofNodes_again`): the nodes are in order as they stand, and the next new id
lies above them already. Together: a tree that was built from a list of nodes is read back from its text
(`Tree.ofText_toText`).
-/
import ByteAtlas.Stored.Tree
import ByteAtlas.Proofs.Json.Record
import ByteAtlas.Proofs.Tree.Building

namespace ByteAtlas

/-! ## Kinds and nodes -/

theorem Kind.ofJson?_toJson (k : Kind) : Kind.ofJson? k.toJson = some k := ofName?_name k

theorem Kind.plain_toJson (k : Kind) : k.toJson.Plain := .text k.name

namespace Node

theorem ofFields?_fieldValues (n : Node) : ofFields? (n.fieldValues.map some) = some n := by
  simp [ofFields?, fieldValues, Json.required, Json.optional, Json.word?_ofWord, Json.text?_ofString,
    Kind.ofJson?_toJson, Json.bool?]

theorem ofJson?_toJson (n : Node) : ofJson? n.toJson = some n := by
  rw [ofJson?, toJson, Json.fields?_ofMembers (by decide) rfl, Option.bind_some, ofFields?_fieldValues]

theorem plain_toJson (n : Node) : n.toJson.Plain := by
  refine .object fun m hm => ?_
  have hvalue : m.2 ∈ n.fieldValues := (List.of_mem_zip hm).2
  have hplain : ∀ j ∈ n.fieldValues, j.Plain := by
    intro j hj
    simp only [fieldValues, List.mem_cons, List.not_mem_nil, or_false] at hj
    rcases hj with rfl | rfl | rfl | rfl | rfl | rfl | rfl | rfl | rfl | rfl | rfl
    · exact .number _
    · exact n.kind.plain_toJson
    · exact .text _
    · exact .number _
    · exact .number _
    · exact .number _
    · exact n.elementKind.plain_toJson
    · exact .text _
    · exact .number _
    · exact .number _
    · exact .bool _
  exact hplain m.2 hvalue

end Node

/-! ## Trees -/

namespace Tree

theorem ofJson?_toJson (t : Tree) : Stored.ofJson? t.toJson = some ⟨formatVersion, t.base, t.nextId, t.nodes⟩ := by
  have hnodes : (t.nodes.map Node.toJson).mapM Node.ofJson? = some t.nodes :=
    Json.mapM_map_of_forall fun n _ => n.ofJson?_toJson
  have hversion : (Json.ofNat formatVersion).nat? (UInt32.size - 1) = some formatVersion := Json.nat?_ofNat (by decide)
  rw [Stored.ofJson?, toJson, Json.fields?_ofMembers (by decide) rfl, Option.bind_some]
  simp only [Stored.ofFields?, List.map_cons, List.map_nil, Json.required, Json.optional, Json.items?, Json.word?_ofWord,
    hversion, hnodes, Option.bind_eq_bind, Option.bind_some, Option.pure_def]

theorem plain_toJson (t : Tree) : t.toJson.Plain := by
  refine .object fun m hm => ?_
  have hvalue := (List.of_mem_zip hm).2
  simp only [List.mem_cons, List.not_mem_nil, or_false] at hvalue
  rcases hvalue with h | h | h | h
  · exact h ▸ .number _
  · exact h ▸ .number _
  · exact h ▸ .number _
  · refine h ▸ .array fun j hj => ?_
    obtain ⟨n, -, rfl⟩ := List.mem_map.1 hj
    exact n.plain_toJson

/-! ## Building a tree once more -/

variable {t u : Tree} {ns : List Node}

/-- nodes that are pushed come behind those that are there, and leave half of the words for new ids -/
theorem pushAll_ok (hu : t.pushAll ns = .ok u) :
    u.base = t.base ∧ u.nodes = t.nodes ++ ns ∧ (t.nextId ≤ maxId + 1 → u.nextId ≤ maxId + 1) := by
  induction ns generalizing t with
  | nil =>
    obtain rfl := Except.ok.inj hu
    exact ⟨rfl, (List.append_nil _).symm, id⟩
  | cons n rest ih =>
    rw [pushAll] at hu
    split_ifs at hu with h0 hc hmax
    obtain ⟨hbase, hnodes, hnext⟩ := ih hu
    refine ⟨hbase, by rw [hnodes, nodes_push, List.append_assoc, List.singleton_append], fun hle => hnext ?_⟩
    rw [UInt64.le_iff_toNat_le] at hle ⊢
    have hroom := toNat_lt_top hmax
    rw [UInt64.lt_iff_toNat_lt] at hmax
    have hid : (Word.satAdd n.id 1).toNat ≤ (maxId + 1).toNat := by
      rw [Word.toNat_satAdd, show (maxId + 1).toNat = maxId.toNat + 1 from rfl]
      have hone : (1 : UInt64).toNat = 1 := rfl
      omega
    change (max t.nextId (Word.satAdd n.id 1)).toNat ≤ _
    rw [Word.toNat_max]
    exact max_le hle hid

/-- **A tree that was built from its nodes is built from them again**, with the same map of positions and the same next
new id. -/
theorem ofNodes_again {base nextId : UInt64} (ht : ofNodes base ns nextId = .ok t) :
    ofNodes t.base t.nodes t.nextId = .ok t := by
  obtain ⟨v, hpush, hv, hcheck⟩ := ofNodes_ok ht
  obtain ⟨hbase, hnodes, hroom⟩ := pushAll_ok hpush
  rw [empty, List.nil_append] at hnodes
  have hnext : t.nextId = max v.nextId nextId := by rw [hv]
  have hnodes' : t.nodes = ns := by rw [hv]; exact hnodes
  have hbase' : t.base = base := by rw [hv]; exact hbase
  have hagain : max v.nextId t.nextId = t.nextId := by
    rw [← UInt64.toNat_inj, hnext]
    simp only [Word.toNat_max]
    omega
  have hle : ¬ maxId + 1 < t.nextId := by
    have hasked : ¬ maxId + 1 < nextId := by
      intro hlt
      simp [ofNodes, hpush, hlt, bind, Except.bind, throw, throwThe, MonadExceptOf.throw] at ht
    have hroom' := hroom (show (1 : UInt64) ≤ maxId + 1 by decide)
    rw [UInt64.lt_iff_toNat_lt] at hasked ⊢
    rw [UInt64.le_iff_toNat_le] at hroom'
    rw [hnext, Word.toNat_max]
    omega
  have hsame : ({ v with nextId := max v.nextId t.nextId } : Tree) = t := by
    rw [hagain, hnext, hv]
  have hcheck' : t.checkHolders v.nodes = .ok () := by rw [hnodes, ← hnodes', hcheck]
  rw [hnodes', hbase', ofNodes, hpush]
  simp only [bind, Except.bind, hle, if_false, hsame, hcheck']
  rfl

/-- **A stored tree is read back.** Whatever characters its names have and whatever words its fields hold, the text of a
tree that was built from a list of nodes is read as that very tree: base, nodes in their order, and next new id. -/
theorem ofText_toText {base nextId : UInt64} (ht : ofNodes base ns nextId = .ok t) : ofText t.toText = .ok t := by
  have hread : Json.ofText? t.toText = some t.toJson := Json.ofText?_pretty t.plain_toJson
  have hversion : ¬ formatVersion < formatVersion := Nat.lt_irrefl _
  rw [ofText, hread, ofJson, Option.bind_some, ofJson?_toJson]
  simp only [Stored.tree, hversion, if_false, ofNodes_again ht]

/-- a struct whose names hold all that a string has to escape, and a field with the largest words -/
def oddNodes : List Node :=
  [{ Node.rootStruct "say \"hi\"\\" "line\none\ttab\u0001\u001f" with id := 0x7fffffffffffffff, collapsed := true },
    { Node.field 0x7fffffffffffffff 0xffffffffffffffff .pointer64 "é€😀\u0000" with
      id := 7, ref := 0xffffffffffffffff, arrayLen := 0xffffffffffffffff, structName := "" }]

theorem ofText_toText_odd :
    ∃ t, ofNodes 0xffffffffffffffff oddNodes 3 = .ok t ∧ t.nodes = oddNodes ∧ ofText t.toText = .ok t := by
  obtain ⟨t, ht, hnodes⟩ : ∃ t, ofNodes 0xffffffffffffffff oddNodes 3 = .ok t ∧ t.nodes = oddNodes := ⟨_, rfl, rfl⟩
  exact ⟨t, ht, hnodes, ofText_toText ht⟩

end Tree

end ByteAtlas
