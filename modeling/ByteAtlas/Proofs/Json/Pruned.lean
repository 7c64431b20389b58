/-
Values with members left out, at any depth: `prune keep` drops every member that `keep` does not accept the path of.

- `prune_true`: with everything accepted, nothing is dropped.
- `prune_ofMembers`: of an object, the members that are accepted are left.
- `Plain.prune`: what is left of a plain value is plain, so it can be written and read back (`ofText?_pretty`).
- `fields?_prune`: a record is still one, with nothing in the fields that were dropped.
-/
import Mathlib
import ByteAtlas.Proofs.Json.Record

namespace ByteAtlas.Json

/-- a step from a value to a part of it -/
inductive Step where
  | item (i : Nat)
  | member (name : String)
  deriving DecidableEq, Repr

/-- what is accepted in the part that a step leads to -/
def inside (keep : List Step → Bool) (s : Step) : List Step → Bool := fun path => keep (s :: path)

mutual

/-- a value without the members that are not accepted -/
def prune (keep : List Step → Bool) : Json → Json
  | .array items => .array (pruneItems keep 0 items)
  | .object ms => .object (pruneMembers keep ms)
  | j => j

/-- the items from a place on -/
def pruneItems (keep : List Step → Bool) (i : Nat) : List Json → List Json
  | [] => []
  | j :: js => prune (inside keep (.item i)) j :: pruneItems keep (i + 1) js

/-- the members; a name that spells no text has no path, so such a member stays -/
def pruneMembers (keep : List Step → Bool) : List (Option String × Json) → List (Option String × Json)
  | [] => []
  | (none, j) :: ms => (none, j) :: pruneMembers keep ms
  | (some name, j) :: ms =>
    if keep [.member name] then (some name, prune (inside keep (.member name)) j) :: pruneMembers keep ms
    else pruneMembers keep ms

end

/-- a value if its member is accepted, else another -/
def kept {α : Type} (keep : List Step → Bool) (name : String) (a default : α) : α :=
  if keep [.member name] then a else default

variable {keep : List Step → Bool}

/-! ## What is left -/

theorem pruneItems_eq (i : Nat) (js : List Json) :
    pruneItems keep i js = (js.zipIdx i).map fun m => m.1.prune (inside keep (.item m.2)) := by
  induction js generalizing i with
  | nil => rfl
  | cons j rest ih => rw [pruneItems, ih, List.zipIdx_cons, List.map_cons]

theorem prune_array (items : List Json) :
    (array items).prune keep = .array (items.zipIdx.map fun m => m.1.prune (inside keep (.item m.2))) := by
  rw [prune, pruneItems_eq]

def left (keep : List Step → Bool) (ms : List (String × Json)) : List (String × Json) :=
  (ms.filter fun m => keep [.member m.1]).map fun m => (m.1, m.2.prune (inside keep (.member m.1)))

theorem prune_ofMembers (ms : List (String × Json)) : (ofMembers ms).prune keep = .ofMembers (left keep ms) := by
  rw [ofMembers, prune, ofMembers, left]
  congr 1
  induction ms with
  | nil => rfl
  | cons m rest ih =>
    rw [List.map_cons, pruneMembers, ih]
    cases hk : keep [.member m.1] <;> simp [hk]

theorem map_fst_left (ms : List (String × Json)) :
    (left keep ms).map Prod.fst = (ms.filter fun m => keep [.member m.1]).map Prod.fst := by
  rw [left, List.map_map]
  rfl

/-- **What is left of a plain value is plain.** -/
theorem Plain.prune {j : Json} (h : j.Plain) (keep : List Step → Bool) : (j.prune keep).Plain := by
  induction h generalizing keep with
  | null => exact .null
  | bool b => exact .bool b
  | number n => exact .number n
  | text s => exact .text s
  | @array items _ ih =>
    rw [prune_array]
    refine .array fun j hj => ?_
    obtain ⟨m, hm, rfl⟩ := List.mem_map.1 hj
    exact ih m.1 (List.fst_mem_of_mem_zipIdx hm) _
  | @object ms _ ih =>
    rw [prune_ofMembers]
    refine .object fun m hm => ?_
    obtain ⟨x, hx, rfl⟩ := List.mem_map.1 hm
    exact ih x (List.mem_of_mem_filter hx) _

/-- with everything accepted, nothing is dropped -/
theorem prune_true {j : Json} (h : j.Plain) : j.prune (fun _ => true) = j := by
  induction h with
  | null => rfl
  | bool b => rfl
  | number n => rfl
  | text s => rfl
  | @array items _ ih =>
    have hsame : (items.zipIdx.map fun m => m.1.prune (inside (fun _ => true) (.item m.2))) = items.zipIdx.map Prod.fst :=
      List.map_congr_left fun m hm => ih m.1 (List.fst_mem_of_mem_zipIdx hm)
    rw [prune_array, hsame, List.zipIdx_map_fst]
  | @object ms _ ih =>
    have hsame : (ms.map fun m => (m.1, m.2.prune (inside (fun _ => true) (.member m.1)))) = ms.map fun m => m :=
      List.map_congr_left fun m hm => Prod.ext rfl (ih m hm)
    rw [prune_ofMembers, left, List.filter_true, hsame, List.map_id']

/-! ## Records -/

/-- a member is found under its name with what is left of it, unless it was dropped -/
theorem onlyMember_left (keep : List Step → Bool) {ms : List (String × Json)} (hd : (ms.map Prod.fst).Nodup)
    {m : String × Json} (hm : m ∈ ms) : onlyMember m.1 ((left keep ms).map fun x => (some x.1, x.2)) =
    some (kept keep m.1 (some (m.2.prune (inside keep (.member m.1)))) none) := by
  cases hk : keep [.member m.1] with
  | true =>
    have hdleft : ((left keep ms).map Prod.fst).Nodup := by
      rw [map_fst_left]
      exact hd.sublist (List.filter_sublist.map _)
    have hmem : (m.1, m.2.prune (inside keep (.member m.1))) ∈ left keep ms :=
      List.mem_map.2 ⟨m, List.mem_filter.2 ⟨hm, hk⟩, rfl⟩
    rw [kept, hk]
    exact onlyMember_of_mem hdleft hmem
  | false =>
    have hgone : m.1 ∉ (left keep ms).map Prod.fst := by
      rw [map_fst_left]
      intro hin
      obtain ⟨x, hx, hname⟩ := List.mem_map.1 hin
      have hyes := (List.mem_filter.1 hx).2
      rw [hname, hk] at hyes
      cases hyes
    rw [kept, hk]
    exact onlyMember_of_not_mem hgone

/-- **A field that was dropped is left out of a record**, every other one is found under its name. -/
theorem fields?_prune {names : List String} {values : List Json} (hd : names.Nodup)
    (hl : names.length = values.length) : fields? names ((ofMembers (names.zip values)).prune keep) =
      some ((names.zip values).map fun m => kept keep m.1 (some (m.2.prune (inside keep (.member m.1)))) none) := by
  have hnames : (names.zip values).map Prod.fst = names := List.map_fst_zip hl.le
  have hfound := fields?_of_forall fun m hm => onlyMember_left keep (hnames.symm ▸ hd) hm
  rwa [hnames, ← prune_ofMembers] at hfound

/-- a field that can be read is read if it is accepted -/
theorem optional_kept {α : Type} {read : Json → Option α} {j : Json} {a : α} (h : read j = some a) (name : String)
    (default : α) : optional default read (kept keep name (some j) none) = some (kept keep name a default) := by
  unfold kept
  split
  · exact h
  · rfl

variable {keep' : List Step → Bool}

theorem optional_kept_ofWord (n : UInt64) (name : String) (default : UInt64) :
    optional default word? (kept keep name (some ((ofWord n).prune keep')) none) = some (kept keep name n default) :=
  optional_kept (word?_ofWord n) name default

theorem optional_kept_ofString (s name default : String) :
    optional default text? (kept keep name (some ((ofString s).prune keep')) none) = some (kept keep name s default) :=
  optional_kept (text?_ofString s) name default

theorem optional_kept_bool (b : Bool) (name : String) (default : Bool) :
    optional default bool? (kept keep name (some ((bool b).prune keep')) none) = some (kept keep name b default) :=
  optional_kept (show bool? (.bool b) = some b from rfl) name default

end ByteAtlas.Json
