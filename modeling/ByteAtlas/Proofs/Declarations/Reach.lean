/-
What is declared. The survey that puts structs in order follows members from struct to struct, and references may form any
graph. It does not go round since a struct that has been met is not entered again.

- `Walks`: a survey without a bound on its depth that comes to its end.
- `walks_iff`: the survey from any start comes to its end, in one way, and the bounded one has its result.
- `Reached`: the start leads to a struct.
- `declared_iff_reached`: the definitions that are written are those of the structs that the start leads to, each once.
-/
import ByteAtlas.Proofs.Declarations.Lines
import ByteAtlas.Proofs.Declarations.Order

namespace ByteAtlas.Tree

open Relation

variable {t : Tree} {s s' s'' s₁ : Survey} {x y i r : Nat} {from' rest : List Nat}

/-! ## Surveys end -/

/-- A survey that comes to its end: what has been met and put in order before it, the positions that it starts from, one
after the other, and what has been met and put in order after it. -/
inductive Walks (t : Tree) : Survey → List Nat → Survey → Prop
  | done {s : Survey} : Walks t s [] s
  | absent {s s' : Survey} {i : Nat} {rest : List Nat} : t.nodes[i]? = none → Walks t s rest s' → Walks t s (i :: rest) s'
  /-- what has been met is not entered again -/
  | again {s s' : Survey} {i : Nat} {rest : List Nat} {n : Node} : t.nodes[i]? = some n → n.id ∈ s.met →
      Walks t s rest s' → Walks t s (i :: rest) s'
  /-- what a struct contains is surveyed before it is put in order, what it points at after that -/
  | first {s s₁ s₂ s' : Survey} {i : Nat} {rest : List Nat} {n : Node} : t.nodes[i]? = some n → n.id ∉ s.met →
      Walks t (s.meet n) ((t.children n.id).flatMap t.contained) s₁ →
      Walks t (s₁.put i) ((t.children n.id).flatMap t.pointedAt) s₂ → Walks t s₂ rest s' → Walks t s (i :: rest) s'

namespace Walks

theorem append (h : t.Walks s from' s₁) (h' : t.Walks s₁ rest s') : t.Walks s (from' ++ rest) s' := by
  induction h with
  | done => exact h'
  | absent hn _ ih => exact .absent hn (ih h')
  | again hn hmet _ ih => exact .again hn hmet (ih h')
  | first hn hno hinner houter _ _ _ ih => exact .first hn hno hinner houter (ih h')

/-- nothing is forgotten -/
theorem subset (h : t.Walks s from' s') : s.met ⊆ s'.met := by
  induction h with
  | done => exact List.Subset.refl _
  | absent _ _ ih | again _ _ _ ih => exact ih
  | first _ _ _ _ _ hinner houter ih =>
    exact fun id hid => ih (houter (hinner (List.mem_cons_of_mem _ hid)))

theorem unmet_le (h : t.Walks s from' s') : t.unmet s' ≤ t.unmet s :=
  unmet_le_of_met fun _ ⟨n, hn, hid⟩ => ⟨n, hn, h.subset hid⟩

/-- no survey has a choice -/
theorem unique (h : t.Walks s from' s') (h' : t.Walks s from' s'') : s'' = s' := by
  induction h generalizing s'' with
  | done =>
    cases h' with
    | done => rfl
  | absent hn _ ih =>
    cases h' with
    | absent _ hrest => exact ih hrest
    | again hn' | first hn' => exact absurd (hn.symm.trans hn') nofun
  | again hn hmet _ ih =>
    cases h' with
    | absent hn' => exact absurd (hn.symm.trans hn') nofun
    | again _ _ hrest => exact ih hrest
    | first hn' hno => exact absurd (Option.some.inj (hn.symm.trans hn') ▸ hmet) hno
  | first hn hno _ _ _ ihinner ihouter ih =>
    cases h' with
    | absent hn' => exact absurd (hn.symm.trans hn') nofun
    | again hn' hmet => exact absurd (Option.some.inj (hn'.symm.trans hn) ▸ hmet) hno
    | first hn' _ hinner houter hrest =>
      obtain rfl := Option.some.inj (hn.symm.trans hn')
      obtain rfl := ihinner hinner
      obtain rfl := ihouter houter
      exact ih hrest

end Walks

/-- surveys one after the other, if each comes to its end -/
theorem walks_foldl {survey : Survey → Nat → Survey} {room : Nat}
    (hstep : ∀ s i, t.unmet s < room → t.Walks s [i] (survey s i)) (from' : List Nat) (s : Survey)
    (hroom : t.unmet s < room) : t.Walks s from' (from'.foldl survey s) := by
  induction from' generalizing s with
  | nil => exact .done
  | cons i rest ih =>
    have hfirst := hstep s i hroom
    exact hfirst.append (ih (survey s i) (hfirst.unmet_le.trans_lt hroom))

/-- **A survey comes to its end** if it may go down deeper than there are nodes that have not been met. -/
theorem walks_survey (depth : Nat) (s : Survey) (i : Nat) (hroom : t.unmet s < depth) :
    t.Walks s [i] (t.survey depth s i) := by
  induction depth generalizing s i with
  | zero => exact absurd hroom (Nat.not_lt_zero _)
  | succ depth ih =>
    rw [survey]
    cases hn : t.nodes[i]? with
    | none => exact .absent hn .done
    | some n =>
      dsimp only
      split_ifs with hmet
      · exact .again hn (by simpa using hmet) .done
      · have hno : n.id ∉ s.met := by simpa using hmet
        have hlt : t.unmet (s.meet n) < t.unmet s := unmet_meet_lt (List.mem_of_getElem? hn) hno
        have hinner := walks_foldl ih ((t.children n.id).flatMap t.contained) (s.meet n) (by omega)
        have hle := hinner.unmet_le
        have houter := walks_foldl ih ((t.children n.id).flatMap t.pointedAt) (Survey.put _ i)
          (show t.unmet _ < depth from hle.trans_lt (hlt.trans_le (Nat.le_of_lt_succ hroom)))
        exact .first hn hno hinner houter .done

/-- **From any start a survey comes to its end, whatever the references, and it ends in one way.** -/
theorem walks_iff (t : Tree) (from' : List Nat) :
    t.Walks ⟨[], []⟩ from' s ↔ s = from'.foldl (t.survey (t.nodes.length + 1)) ⟨[], []⟩ := by
  have hroom : t.unmet ⟨[], []⟩ < t.nodes.length + 1 := Nat.lt_succ_of_le List.countP_le_length
  have hends := walks_foldl (walks_survey (t := t) _) from' _ hroom
  exact ⟨fun h => hends.unique h, fun h => h ▸ hends⟩

/-! ## What the start leads to -/

/-- Declarations start from the struct at a position: it has the id that they are asked for, or is a root if they are asked
for as a whole. -/
def StartsAt (t : Tree) (scope : Option NodeId) (r : Nat) : Prop :=
  ∃ n, t.nodes[r]? = some n ∧ n.kind = .struct ∧
    match scope with
    | some id => n.id = id
    | none => n.parent = 0

theorem mem_starts_iff (h : t.Indexed) {scope : Option NodeId} : r ∈ t.starts scope ↔ t.StartsAt scope r := by
  unfold StartsAt
  cases scope with
  | some id =>
    simp only [starts, Option.mem_toList, Option.filter_eq_some_iff, Option.any_eq_true, beq_iff_eq, h id r,
      Option.map_eq_some_iff]
    refine ⟨?_, fun ⟨n, hn, hk, hid⟩ => ⟨⟨n, hn, hid⟩, n, hn, hk⟩⟩
    intro ⟨⟨n, hn, hid⟩, n', hn', hk⟩
    obtain rfl := Option.some.inj (hn.symm.trans hn')
    exact ⟨n, hn, hk, hid⟩
  | none =>
    simp only [starts, structRoots, roots, List.mem_filter, mem_children, Option.any_eq_true, beq_iff_eq]
    refine ⟨?_, fun ⟨n, hn, hk, hroot⟩ => ⟨⟨n, hn, hroot⟩, n, hn, hk⟩⟩
    intro ⟨⟨n, hn, hroot⟩, n', hn', hk⟩
    obtain rfl := Option.some.inj (hn.symm.trans hn')
    exact ⟨n, hn, hk, hroot⟩

/-- what is mentioned is a struct -/
theorem Mentions.exists_struct (h : t.Mentions x y) : ∃ n, t.nodes[y]? = some n ∧ n.kind = .struct := by
  rcases h with hin | ⟨m, -, -, -, d, hd, -, hk⟩
  · cases hin with
    | nested _ hk _ _ hy => exact ⟨_, hy, hk⟩
    | embedded _ _ _ hy | row _ _ hy =>
      obtain ⟨-, d, hd, -, hk⟩ := hy
      exact ⟨d, hd, hk⟩
  · exact ⟨d, hd, hk⟩

theorem exists_struct_of_reached {scope : Option NodeId} (hr : t.StartsAt scope r) (hway : ReflTransGen t.Mentions r x) :
    ∃ n, t.nodes[x]? = some n ∧ n.kind = .struct := by
  cases hway with
  | refl => exact hr.imp fun n hn => ⟨hn.1, hn.2.1⟩
  | tail _ hlast => exact hlast.exists_struct

theorem not_met_nil (t : Tree) (i : Nat) : ¬ t.Met ⟨[], []⟩ i := by
  rintro ⟨n, -, hid⟩
  exact List.not_mem_nil hid

theorem mem_declared_iff (h : t.Indexed) (scope : Option NodeId) :
    x ∈ t.declared scope ↔ ∃ r ∈ t.starts scope, ReflTransGen t.Mentions r x := by
  have hsurvey := advances_declarationOrder h (t.starts scope)
  have hmet : ∀ i, t.Met _ i → i ∈ t.declared scope := fun i hi => ((hsurvey.met i).1 hi).resolve_left (t.not_met_nil i)
  refine ⟨fun hx => ?_, ?_⟩
  · obtain ⟨r, hr, -, hway⟩ := hsurvey.reached x hx
    exact ⟨r, hr, ReflTransGen.mono (fun _ _ hab => hab.1) _ _ hway⟩
  · -- what the start leads to has been met, one step after the other
    intro ⟨r, hr, hway⟩
    induction hway with
    | refl => exact hmet r (hsurvey.started r hr (lt_of_mem_starts hr))
    | tail _ hlast ih => exact hmet _ (hsurvey.closed _ ih _ hlast)

/-- declarations that start somewhere lead to the struct at a position -/
def Reached (t : Tree) (scope : Option NodeId) (x : Nat) : Prop := ∃ r, t.StartsAt scope r ∧ ReflTransGen t.Mentions r x

theorem mem_declared_iff_reached (h : t.Indexed) (scope : Option NodeId) {x : Nat} :
    x ∈ t.declared scope ↔ t.Reached scope x := by
  simp only [mem_declared_iff h, mem_starts_iff h, Reached]

/-- what is declared is a struct -/
theorem exists_struct_of_mem_declared (h : t.Indexed) {scope : Option NodeId} {x : Nat} (hx : x ∈ t.declared scope) :
    ∃ n, t.nodes[x]? = some n ∧ n.kind = .struct := by
  obtain ⟨r, hr, hway⟩ := (mem_declared_iff_reached h scope).1 hx
  exact exists_struct_of_reached hr hway

theorem timesDefined_rendered (h : t.Indexed) (scope : Option NodeId) (tag : String) :
    timesDefined tag (t.rendered scope) = (t.declared scope).countP fun x => t.tagAt x = tag := by
  rw [rendered_eq]
  exact timesDefined_declarationsOf (fun x hx => (exists_struct_of_mem_declared h hx).imp fun _ hn => hn.1) tag

/-- **What the start leads to is declared, each struct once, and nothing else is.** Whatever the references, the survey that
finds it comes to its end, in one way: with the order in which the definitions are written. Each definition opens the tag of
its struct, once, and no other; so the lines of the text open a tag as often as there are structs in order that have it. -/
theorem declared_iff_reached (h : t.Formed) (scope : Option NodeId) :
    (t.rendered scope =
      String.join ((firstOnly [] ((t.declared scope).map t.tagAt)).map fun tag => "struct " ++ tag ++ ";\n") ++
        String.join ((t.declared scope).map fun x => "\n" ++ t.definitionText x)) ∧
    (t.declared scope).Nodup ∧
    (∀ x, x ∈ t.declared scope ↔ ∃ r, t.StartsAt scope r ∧ ReflTransGen t.Mentions r x) ∧
    (∀ x ∈ t.declared scope, ∃ n, t.nodes[x]? = some n ∧ n.kind = .struct ∧
      ∀ tag, timesDefined tag (t.definitionText x) = if identifier n.typeName = tag then 1 else 0) ∧
    (∀ tag, timesDefined tag (t.rendered scope) = (t.declared scope).countP fun x => t.tagAt x = tag) ∧
    ∃ met, ∀ s, t.Walks ⟨[], []⟩ (t.starts scope) s ↔ s = ⟨met, t.declared scope⟩ := by
  refine ⟨rendered_eq t scope, (advances_declarationOrder h.indexed (t.starts scope)).nodup,
    fun x => mem_declared_iff_reached h.indexed scope, fun x hx => ?_, timesDefined_rendered h.indexed scope,
    _, fun s => t.walks_iff (t.starts scope)⟩
  obtain ⟨n, hn, hk⟩ := exists_struct_of_mem_declared h.indexed hx
  exact ⟨n, hn, hk, (timesDefined_definitionText hn).2⟩

/-- a struct with a pointer to itself, and a second one that holds a row of the first -/
def selfishNodes : List Node :=
  [{ Node.rootStruct "list" "List" with id := 1 }, { Node.rootStruct "table" "Table" with id := 2 },
    { Node.field 1 0 .pointer64 "next" with id := 3, ref := 1 },
    { Node.field 2 0 .array "heads" with id := 4, ref := 1, elementKind := .struct, arrayLen := 3 }]

def selfish : Tree := selfishNodes.foldl push (empty 0)

theorem formed_selfish : selfish.Formed :=
  (wellFormed_ofNodes (show ofNodes 0 selfishNodes 1 = .ok selfish from rfl)).toFormed

/-- the first leads to nothing but itself, and is declared once with the second -/
theorem declared_iff_reached_selfish : selfish.Formed ∧ selfish.declared (some 1) = [0] ∧
    selfish.declared none = [0, 1] ∧ (∀ r, selfish.StartsAt (some 1) r → ¬ ReflTransGen selfish.Mentions r 1) ∧
    ∃ r, selfish.StartsAt (some 2) r ∧ ReflTransGen selfish.Mentions r 0 := by
  have halone : 1 ∉ selfish.declared (some 1) := by decide
  have hboth : 0 ∈ selfish.declared (some 2) := by decide
  refine ⟨formed_selfish, by decide, by decide, fun r hr hway => halone ?_, ?_⟩
  · exact ((declared_iff_reached formed_selfish (some 1)).2.2.1 1).2 ⟨r, hr, hway⟩
  · exact ((declared_iff_reached formed_selfish (some 2)).2.2.1 0).1 hboth

end ByteAtlas.Tree
