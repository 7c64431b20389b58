/-
How many bytes a text stands for: those of the kind, or, for the kinds of text, as many as it is told
(`Kind.length_readValue`). A value that is read for a node thus covers exactly the bytes that the node covers
(`Tree.length_readValue`).
-/
import Mathlib
import ByteAtlas.Value.Read
import ByteAtlas.Tree.Extent

namespace ByteAtlas

namespace Value

theorem length_readPairs {cs : List Char} {bs : Bytes} (h : readPairs cs = some bs) : cs.length = 2 * bs.length := by
  match cs, h with
  | [], h =>
    obtain rfl := Option.some.inj h
    rfl
  | a :: b :: rest, h =>
    rw [readPairs] at h
    split at h
    · next hv hrest =>
      obtain rfl := Option.some.inj h
      have hlen := length_readPairs hrest
      simp only [List.length_cons]
      omega
    · simp at h
  | [a], h => simp [readPairs] at h

theorem length_readHex {n : Nat} {t : List Char} {bs : Bytes} (h : readHex n t = .ok bs) : bs.length = n := by
  unfold readHex at h
  simp only at h
  split at h
  · next hdigits =>
    split at h
    · next bs' hpairs =>
      obtain rfl := Except.ok.inj h
      have hlen := length_readPairs hpairs
      omega
    · simp at h
  · simp at h

theorem length_readSingle {t : List Char} {bs : Bytes} (h : readSingle t = .ok bs) : bs.length = 4 := by
  unfold readSingle at h
  split at h
  · obtain rfl := Except.ok.inj h
    exact Bytes.length_ofNat 4 _
  · simp at h

theorem length_mapM_readSingle {ts : List (List Char)} {bss : List Bytes} (h : ts.mapM readSingle = .ok bss) :
    bss.flatten.length = 4 * ts.length := by
  induction ts generalizing bss with
  | nil =>
    obtain rfl := Except.ok.inj h
    rfl
  | cons t rest ih =>
    rw [List.mapM_cons] at h
    cases ht : readSingle t with
    | error e => simp [ht, bind, Except.bind] at h
    | ok bs =>
      cases hrest : rest.mapM readSingle with
      | error e => simp [ht, hrest, bind, Except.bind] at h
      | ok tail =>
        rw [ht, hrest] at h
        obtain rfl := Except.ok.inj h
        rw [List.flatten_cons, List.length_append, length_readSingle ht, ih hrest, List.length_cons]
        omega

theorem length_readSingles {n : Nat} {t : List Char} {bs : Bytes} (h : readSingles n t = .ok bs) :
    bs.length = 4 * n := by
  unfold readSingles at h
  simp only at h
  split at h
  · next hparts =>
    cases hm : (parts t).mapM readSingle with
    | error e => simp [hm, Except.map] at h
    | ok bss =>
      rw [hm] at h
      obtain rfl := Except.ok.inj h
      rw [length_mapM_readSingle hm, hparts]
  · simp at h

theorem length_readBool {t : List Char} {bs : Bytes} (h : readBool t = .ok bs) : bs.length = 1 := by
  unfold readBool at h
  simp only at h
  split at h
  · obtain rfl := Except.ok.inj h
    rfl
  · split at h
    · obtain rfl := Except.ok.inj h
      rfl
    · simp at h

/-- a number laid out in the bytes of a kind -/
theorem length_map_ofNat {r : Except ValueError Nat} {w : Nat} {bs : Bytes} (h : r.map (Bytes.ofNat w) = .ok bs) :
    bs.length = w := by
  cases r with
  | error e => simp [Except.map] at h
  | ok v =>
    obtain rfl := Except.ok.inj h
    exact Bytes.length_ofNat w v

end Value

/-- **A text stands for as many bytes as its kind has**, or as it is told for kinds of text. -/
theorem Kind.length_readValue {k : Kind} {text : String} {size : Nat} {bs : Bytes} (h : k.readValue text size = .ok bs) :
    bs.length = if k.isText then size else k.width := by
  unfold Kind.readValue Value.readChars at h
  simp only at h
  split at h
  · simp at h
  · cases k with
    | hex8 | hex16 | hex32 | hex64 =>
      simp only at h
      split at h
      · exact Value.length_map_ofNat h
      · exact Value.length_readHex h
    | int8 | int16 | int32 | int64 | uint8 | uint16 | uint32 | uint64 | pointer32 | pointer64 =>
      exact Value.length_map_ofNat h
    | float => exact Value.length_readSingle h
    | double =>
      simp only at h
      split at h
      · obtain rfl := Except.ok.inj h
        exact Bytes.length_ofNat 8 _
      · simp at h
    | bool => exact Value.length_readBool h
    | vec2 | vec3 | vec4 | mat4x4 => exact Value.length_readSingles h
    | utf8 | utf16 =>
      obtain rfl := Except.ok.inj h
      exact Bytes.length_resize size _
    | padding | array | struct => simp at h

/-- the size of a node with a value: what it is told for kinds of text, or else the width of its kind -/
theorem Tree.toNat_size {t : Tree} {i : Nat} {n : Node} (hn : t.nodes[i]? = some n) (hv : n.kind.hasValue = true)
    (hk : n.kind.isText = false) : (t.size i).toNat = n.kind.width := by
  rw [size, depthBound, measure, hn]
  cases he : n.kind <;> simp [he, Kind.hasValue, Kind.isText] at hv hk <;>
    simp [Node.ownSize, he, Kind.width]

theorem Tree.length_readValue {t : Tree} {i : Nat} {n : Node} (hn : t.nodes[i]? = some n) (hv : n.kind.hasValue = true)
    {text : String} {bs : Bytes} (h : n.kind.readValue text (t.size i).toNat = .ok bs) :
    bs.length = (t.size i).toNat := by
  rw [Kind.length_readValue h]
  cases hk : n.kind.isText with
  | true => rfl
  | false => exact (t.toNat_size hn hv hk).symm

end ByteAtlas
