/-
The order of declarations. One survey from struct to struct decides it: a struct is put in order after the structs that
it contains have been surveyed, and before those that it points at. The ids met on the way are kept once for both, so a
struct that is met again while it waits for what it contains is not put in order first.

- `Contains`, `PointsAt`: what a struct has inside and what it points at, told by its members alone.
- `ComesBack`: from inside a struct a way leads to a second one that does not pass the first again. If containment runs
  in no ring, such a way passes a pointer.
- `Advances`: what a survey adds to an earlier one. `advances_define` is the step for one struct, `advances_survey` the
  whole way down.
- `contained_declared_first`: a struct stands behind all those it contains that do not come back to it.
- `not_declared_first_crossed`: one that comes back may stand behind the struct that contains it.
-/
import ByteAtlas.Proofs.Tree.Building
import ByteAtlas.Declarations.Text

namespace ByteAtlas.Tree

open Relation

variable {t : Tree} {x y i : Nat}

/-! ## Structs in structs -/

def MemberOf (t : Tree) (x : Nat) (m : Node) : Prop := m ∈ t.nodes ∧ ∃ n, t.nodes[x]? = some n ∧ m.parent = n.id

def RefersTo (t : Tree) (m : Node) (y : Nat) : Prop :=
  m.ref ≠ 0 ∧ ∃ d, t.nodes[y]? = some d ∧ d.id = m.ref ∧ d.kind = .struct

/-- the bytes of the struct at one position are among those of the struct at another -/
inductive Contains (t : Tree) (x : Nat) : Nat → Prop
  /-- a member is a struct with members of its own -/
  | nested {y : Nat} {m k : Node} : t.MemberOf x m → m.kind = .struct → k ∈ t.nodes → k.parent = m.id →
      t.nodes[y]? = some m → Contains t x y
  /-- a member is a struct that another one defines -/
  | embedded {y : Nat} {m : Node} : t.MemberOf x m → m.kind = .struct → (∀ k ∈ t.nodes, k.parent ≠ m.id) →
      t.RefersTo m y → Contains t x y
  /-- a member is a row of structs -/
  | row {y : Nat} {m : Node} : t.MemberOf x m → m.kind = .array → t.RefersTo m y → Contains t x y

/-- a member of the struct at one position points at the struct at another -/
def PointsAt (t : Tree) (x y : Nat) : Prop := ∃ m, t.MemberOf x m ∧ m.kind.isPointer ∧ t.RefersTo m y

/-- one struct contains another or points at it -/
def Mentions (t : Tree) (x y : Nat) : Prop := t.Contains x y ∨ t.PointsAt x y

/-- what one struct contains leads to another one on a way that does not pass the first again -/
def ComesBack (t : Tree) (y x : Nat) : Prop :=
  x = y ∨ ∃ z, t.Contains y z ∧ z ≠ y ∧ ReflTransGen (fun a b => t.Mentions a b ∧ b ≠ y) z x

theorem referredStruct_eq_some_iff (h : t.Indexed) {m : Node} : t.referredStruct m = some y ↔ t.RefersTo m y := by
  unfold referredStruct RefersTo
  by_cases hz : m.ref = 0
  · simp [hz]
  · simp only [hz, if_false, Option.filter_eq_some_iff, Option.any_eq_true, beq_iff_eq, ne_eq, not_false_eq_true, true_and,
      h m.ref y, Option.map_eq_some_iff]
    constructor
    · rintro ⟨⟨d, hd, hid⟩, d', hd', hk⟩
      obtain rfl := Option.some.inj (hd.symm.trans hd')
      exact ⟨d, hd, hid, hk⟩
    · rintro ⟨d, hd, hid, hk⟩
      exact ⟨⟨d, hd, hid⟩, d, hd, hk⟩

theorem memberOf_iff {n m : Node} (hn : t.nodes[x]? = some n) :
    t.MemberOf x m ↔ ∃ c ∈ t.children n.id, t.nodes[c]? = some m := by
  constructor
  · rintro ⟨hm, n', hn', hp⟩
    obtain rfl := Option.some.inj (hn.symm.trans hn')
    obtain ⟨c, hc⟩ := List.mem_iff_getElem?.1 hm
    exact ⟨c, mem_children.2 ⟨m, hc, hp⟩, hc⟩
  · rintro ⟨c, hc, hm⟩
    obtain ⟨m', hm', hp⟩ := mem_children.1 hc
    obtain rfl := Option.some.inj (hm.symm.trans hm')
    exact ⟨List.mem_of_getElem? hm, n, hn, hp⟩

/-- the survey goes first to what a struct contains -/
theorem mem_contained_iff (h : t.Indexed) {n : Node} (hn : t.nodes[x]? = some n) :
    y ∈ (t.children n.id).flatMap t.contained ↔ t.Contains x y := by
  rw [List.mem_flatMap]
  constructor
  · rintro ⟨c, hc, hy⟩
    obtain ⟨m, hm, -⟩ := mem_children.1 hc
    have hmember : t.MemberOf x m := (memberOf_iff hn).2 ⟨c, hc, hm⟩
    simp only [contained, hm] at hy
    split at hy
    · rename_i hk
      split_ifs at hy with hempty
      · refine .embedded hmember hk (children_isEmpty_iff.1 hempty) ?_
        rwa [Option.mem_toList, referredStruct_eq_some_iff h] at hy
      · obtain rfl := List.mem_singleton.1 hy
        rw [children_isEmpty_iff] at hempty
        push Not at hempty
        obtain ⟨k, hk', hp⟩ := hempty
        exact .nested hmember hk hk' hp hm
    · rename_i hk
      rw [Option.mem_toList, referredStruct_eq_some_iff h] at hy
      exact .row hmember hk hy
    · exact absurd hy List.not_mem_nil
  · intro hxy
    cases hxy with
    | nested hmember hk hchild hp hy =>
      obtain ⟨c, hc, hm⟩ := (memberOf_iff hn).1 hmember
      have hempty : ¬ (t.children _).isEmpty = true := fun he => children_isEmpty_iff.1 he _ hchild hp
      refine ⟨c, hc, ?_⟩
      simp only [contained, hm, hk, hempty, Bool.false_eq_true, if_false]
      exact List.mem_singleton.2 (h.eq_of_id_eq hy hm rfl)
    | embedded hmember hk hno hy =>
      obtain ⟨c, hc, hm⟩ := (memberOf_iff hn).1 hmember
      refine ⟨c, hc, ?_⟩
      simp only [contained, hm, hk, children_isEmpty_iff.2 hno, if_true]
      rwa [Option.mem_toList, referredStruct_eq_some_iff h]
    | row hmember hk hy =>
      obtain ⟨c, hc, hm⟩ := (memberOf_iff hn).1 hmember
      refine ⟨c, hc, ?_⟩
      simp only [contained, hm, hk]
      rwa [Option.mem_toList, referredStruct_eq_some_iff h]

/-- and then to what it points at -/
theorem mem_pointedAt_iff (h : t.Indexed) {n : Node} (hn : t.nodes[x]? = some n) :
    y ∈ (t.children n.id).flatMap t.pointedAt ↔ t.PointsAt x y := by
  rw [List.mem_flatMap]
  constructor
  · rintro ⟨c, hc, hy⟩
    obtain ⟨m, hm, -⟩ := mem_children.1 hc
    simp only [pointedAt, hm] at hy
    split_ifs at hy with hk
    · rw [Option.mem_toList, referredStruct_eq_some_iff h] at hy
      exact ⟨m, (memberOf_iff hn).2 ⟨c, hc, hm⟩, hk, hy⟩
    · exact absurd hy List.not_mem_nil
  · rintro ⟨m, hmember, hk, hy⟩
    obtain ⟨c, hc, hm⟩ := (memberOf_iff hn).1 hmember
    refine ⟨c, hc, ?_⟩
    simp only [pointedAt, hm, hk, if_true]
    rwa [Option.mem_toList, referredStruct_eq_some_iff h]

theorem RefersTo.lt {m : Node} (h : t.RefersTo m y) : y < t.nodes.length := by
  obtain ⟨-, d, hd, -⟩ := h
  exact (List.getElem?_eq_some_iff.1 hd).1

/-- what contains something is there -/
theorem Contains.exists_node (h : t.Contains x y) : ∃ n, t.nodes[x]? = some n := by
  cases h with
  | nested hmember | embedded hmember | row hmember => exact hmember.2.imp fun _ h => h.1

/-- what is mentioned is there -/
theorem Mentions.lt (h : t.Mentions x y) : y < t.nodes.length := by
  rcases h with hin | ⟨m, -, -, hy⟩
  · cases hin with
    | nested _ _ _ _ hy => exact (List.getElem?_eq_some_iff.1 hy).1
    | embedded _ _ _ hy => exact hy.lt
    | row _ _ hy => exact hy.lt
  · exact hy.lt

/-! ## Surveys -/

def Met (t : Tree) (s : Survey) (i : Nat) : Prop := ∃ n, t.nodes[i]? = some n ∧ n.id ∈ s.met

/-- a struct has been met and is still to be put in order: what it contains is being surveyed -/
def Open (t : Tree) (s : Survey) (i : Nat) : Prop := t.Met s i ∧ i ∉ s.order

def unmet (t : Tree) (s : Survey) : Nat := t.nodes.countP fun n => !s.met.contains n.id

def Survey.meet (s : Survey) (n : Node) : Survey := { s with met := n.id :: s.met }

def Survey.put (s : Survey) (i : Nat) : Survey := { s with order := s.order ++ [i] }

theorem met_meet {s : Survey} (h : t.Indexed) {n : Node} (hn : t.nodes[i]? = some n) :
    t.Met (s.meet n) x ↔ t.Met s x ∨ x = i := by
  constructor
  · rintro ⟨m, hm, hid⟩
    rcases List.mem_cons.1 hid with e | hid
    · exact Or.inr (h.eq_of_id_eq hm hn e)
    · exact Or.inl ⟨m, hm, hid⟩
  · rintro (⟨m, hm, hid⟩ | rfl)
    · exact ⟨m, hm, List.mem_cons_of_mem _ hid⟩
    · exact ⟨n, hn, List.mem_cons_self⟩

theorem unmet_le_of_met {s s' : Survey} (h : ∀ i, t.Met s i → t.Met s' i) : t.unmet s' ≤ t.unmet s := by
  refine List.countP_mono_left fun n hn hno => ?_
  simp only [Bool.not_eq_true', List.contains_eq_mem, decide_eq_false_iff_not] at hno ⊢
  intro hmet
  obtain ⟨i, hi⟩ := List.mem_iff_getElem?.1 hn
  obtain ⟨m, hm, hid⟩ := h i ⟨n, hi, hmet⟩
  exact hno (Option.some.inj (hm.symm.trans hi) ▸ hid)

theorem unmet_meet_lt {s : Survey} {n : Node} (hn : n ∈ t.nodes) (hno : n.id ∉ s.met) : t.unmet (s.meet n) < t.unmet s := by
  have hfilter : t.nodes.filter (fun m => !(s.meet n).met.contains m.id) =
      (t.nodes.filter fun m => !s.met.contains m.id).filter fun m => !decide (m.id = n.id) := by
    rw [List.filter_filter]
    refine List.filter_congr fun m _ => ?_
    simp [Survey.meet]
  rw [unmet, unmet, List.countP_eq_length_filter, List.countP_eq_length_filter, hfilter,
    List.length_filter_lt_length_iff_exists]
  exact ⟨n, List.mem_filter.2 ⟨hn, by simpa using hno⟩, by simp⟩

/-- What a survey of the structs at some positions adds to an earlier one. -/
structure Advances (t : Tree) (from' : List Nat) (s s' : Survey) (added : List Nat) : Prop where
  order : s'.order = s.order ++ added
  nodup : added.Nodup
  met : ∀ i, t.Met s' i ↔ t.Met s i ∨ i ∈ added
  started : ∀ i ∈ from', i < t.nodes.length → t.Met s' i
  /-- what is added had not been met, nor had anything on some way to it -/
  reached : ∀ x ∈ added, ∃ i ∈ from', ¬ t.Met s i ∧ ReflTransGen (fun a b => t.Mentions a b ∧ ¬ t.Met s b) i x
  closed : ∀ x ∈ added, ∀ y, t.Mentions x y → t.Met s' y
  placed : ∀ x ∈ added, ∀ y, t.Contains x y → [y, x].Sublist s'.order ∨ t.Open s y ∨ t.ComesBack y x

namespace Advances

variable {s s' s'' : Survey} {from' rest added more : List Nat}

theorem refl (hfrom : ∀ i ∈ from', i < t.nodes.length → t.Met s i) : t.Advances from' s s [] where
  order := by simp
  nodup := by simp
  met := by simp
  started := hfrom
  reached := by simp
  closed := by simp
  placed := by simp

theorem not_met (h : t.Advances from' s s' added) (hx : x ∈ added) : ¬ t.Met s x := by
  obtain ⟨i, -, hi, hway⟩ := h.reached x hx
  cases hway with
  | refl => exact hi
  | tail _ hlast => exact hlast.2

theorem met_of_met (h : t.Advances from' s s' added) (hx : t.Met s x) : t.Met s' x := (h.met x).2 (Or.inl hx)

/-- the same structs stay open -/
theorem open_iff (h : t.Advances from' s s' added) : t.Open s' x ↔ t.Open s x := by
  unfold Open
  rw [h.met, h.order, List.mem_append]
  constructor
  · rintro ⟨hmet | hx, hno⟩
    · exact ⟨hmet, fun hx => hno (Or.inl hx)⟩
    · exact absurd (Or.inr hx) hno
  · rintro ⟨hmet, hno⟩
    refine ⟨Or.inl hmet, ?_⟩
    rintro (hx | hx)
    · exact hno hx
    · exact h.not_met hx hmet

/-- one survey after another -/
theorem trans (h : t.Advances from' s s' added) (h' : t.Advances rest s' s'' more) :
    t.Advances (from' ++ rest) s s'' (added ++ more) where
  order := by rw [h'.order, h.order, List.append_assoc]
  nodup := List.nodup_append.2 ⟨h.nodup, h'.nodup, fun a ha b hb e =>
    h'.not_met hb ((h.met b).2 (Or.inr (e ▸ ha)))⟩
  met i := by rw [h'.met, h.met, List.mem_append, or_assoc]
  started i hi hlt := by
    rcases List.mem_append.1 hi with hi | hi
    · exact h'.met_of_met (h.started i hi hlt)
    · exact h'.started i hi hlt
  reached x hx := by
    rcases List.mem_append.1 hx with hx | hx
    · obtain ⟨i, hi, hno, hway⟩ := h.reached x hx
      exact ⟨i, List.mem_append_left _ hi, hno, hway⟩
    · obtain ⟨i, hi, hno, hway⟩ := h'.reached x hx
      exact ⟨i, List.mem_append_right _ hi, fun hmet => hno (h.met_of_met hmet),
        ReflTransGen.mono (fun a b hab => ⟨hab.1, fun hmet => hab.2 (h.met_of_met hmet)⟩) _ _ hway⟩
  closed x hx y hxy := by
    rcases List.mem_append.1 hx with hx | hx
    · exact h'.met_of_met (h.closed x hx y hxy)
    · exact h'.closed x hx y hxy
  placed x hx y hxy := by
    rcases List.mem_append.1 hx with hx | hx
    · rcases h.placed x hx y hxy with hbefore | hopen | hback
      · exact Or.inl (h'.order ▸ hbefore.trans (List.sublist_append_left _ more))
      · exact Or.inr (Or.inl hopen)
      · exact Or.inr (Or.inr hback)
    · rw [← h.open_iff]
      exact h'.placed x hx y hxy

/-- what a survey adds is reached through a struct that mentions all that it started from -/
theorem way_from (h : t.Advances from' s s' added) (hfrom : ∀ j ∈ from', t.Mentions i j) {s₀ : Survey}
    (hmono : ∀ j, t.Met s₀ j → t.Met s j) (hx : x ∈ added) :
    ReflTransGen (fun a b => t.Mentions a b ∧ ¬ t.Met s₀ b) i x := by
  obtain ⟨j, hj, hno, hway⟩ := h.reached x hx
  refine .head ⟨hfrom j hj, fun hmet => hno (hmono j hmet)⟩ ?_
  exact ReflTransGen.mono (fun a b hab => ⟨hab.1, fun hmet => hab.2 (hmono b hmet)⟩) _ _ hway

/-- what is added on the way down from a struct that has been met is led to from inside that struct -/
theorem comesBack (h : t.Advances from' s s' added) (hfrom : ∀ j ∈ from', t.Contains i j) (hi : t.Met s i)
    (hx : x ∈ added) : t.ComesBack i x := by
  obtain ⟨j, hj, hno, hway⟩ := h.reached x hx
  have havoid : ∀ {b}, ¬ t.Met s b → b ≠ i := fun hb e => hb (e ▸ hi)
  exact Or.inr ⟨j, hfrom j hj, havoid hno, ReflTransGen.mono (fun a b hab => ⟨hab.1, havoid hab.2⟩) _ _ hway⟩

end Advances

/-! ## One struct -/

/-- what is open once a node has been met was so before, or is that node -/
theorem open_meet (h : t.Indexed) {s : Survey} {n : Node} (hn : t.nodes[i]? = some n) (hy : t.Open (s.meet n) y) :
    t.Open s y ∨ y = i :=
  ((met_meet h hn).1 hy.1).imp_left fun hmet => ⟨hmet, hy.2⟩

section Define

variable {s s₁ s₂ : Survey} {n : Node} {inner outer : List Nat} (h : t.Indexed) (hn : t.nodes[i]? = some n)
  (hinner : t.Advances ((t.children n.id).flatMap t.contained) (s.meet n) s₁ inner)
  (houter : t.Advances ((t.children n.id).flatMap t.pointedAt) (s₁.put i) s₂ outer)

include h hn hinner

/-- what a struct contains has been met when it is put in order -/
theorem met_of_contains (hy : t.Contains i y) : t.Met s₁ y :=
  hinner.started y ((mem_contained_iff h hn).2 hy) (Mentions.lt (Or.inl hy))

include houter

/-- what one of the structs contains is put in order before it, was open already, or leads back to it -/
theorem placed_define (hx : x ∈ inner ++ [i] ++ outer) (hxy : t.Contains x y) :
    [y, x].Sublist s₂.order ∨ t.Open s y ∨ t.ComesBack y x := by
  have horder : s₂.order = s₁.order ++ [i] ++ outer := houter.order
  rcases List.mem_append.1 hx with hx | hafter
  · rcases List.mem_append.1 hx with hbefore | hself
    · rcases hinner.placed x hbefore y hxy with hsub | hwait | hback
      · exact Or.inl (horder ▸ (hsub.trans (List.sublist_append_left _ [i])).trans (List.sublist_append_left _ outer))
      · rcases open_meet h hn hwait with hwait | rfl
        · exact Or.inr (Or.inl hwait)
        · have hmet : t.Met (s.meet n) y := (met_meet h hn).2 (Or.inr rfl)
          exact Or.inr (Or.inr (hinner.comesBack (fun j hj => (mem_contained_iff h hn).1 hj) hmet hbefore))
      · exact Or.inr (Or.inr hback)
    · obtain rfl := List.mem_singleton.1 hself
      by_cases hy : y ∈ s₁.order
      · exact Or.inl (horder ▸ ((List.singleton_sublist.2 hy).append (.refl [x])).trans (List.sublist_append_left _ outer))
      · rcases open_meet h hn (hinner.open_iff.1 ⟨met_of_contains h hn hinner hxy, hy⟩) with hwait | rfl
        · exact Or.inr (Or.inl hwait)
        · exact Or.inr (Or.inr (Or.inl rfl))
  · rcases houter.placed x hafter y hxy with hsub | ⟨hmet, hwait⟩ | hback
    · exact Or.inl hsub
    · have hwait' : y ∉ s₁.order ∧ y ≠ i := by simpa [Survey.put] using hwait
      have hopen : t.Open s₁ y := ⟨hmet, hwait'.1⟩
      exact Or.inr (Or.inl ((open_meet h hn (hinner.open_iff.1 hopen)).resolve_right hwait'.2))
    · exact Or.inr (Or.inr hback)

/-- **The step for one struct.** It is met, what it contains is surveyed, it is put in order, and what it points at is
surveyed. -/
theorem advances_define (hno : n.id ∉ s.met) : t.Advances [i] s s₂ (inner ++ [i] ++ outer) := by
  have hmeet : ∀ x, t.Met (s.meet n) x ↔ t.Met s x ∨ x = i := fun x => met_meet h hn
  have hput : ∀ x, t.Met (s₁.put i) x ↔ t.Met s₁ x := fun x => Iff.rfl
  have hi : ¬ t.Met s i := by
    rintro ⟨m, hm, hid⟩
    exact hno (Option.some.inj (hm.symm.trans hn) ▸ hid)
  have hself : t.Met (s.meet n) i := (hmeet i).2 (Or.inr rfl)
  have hself₁ : t.Met s₁ i := hinner.met_of_met hself
  have hinto : ∀ j, j ∈ (t.children n.id).flatMap t.contained ↔ t.Contains i j := fun j => mem_contained_iff h hn
  have honto : ∀ j, j ∈ (t.children n.id).flatMap t.pointedAt ↔ t.PointsAt i j := fun j => mem_pointedAt_iff h hn
  have hmono : ∀ j, t.Met s j → t.Met s₁ j := fun j hj => hinner.met_of_met ((hmeet j).2 (Or.inl hj))
  constructor
  case order =>
    have horder : s₂.order = s₁.order ++ [i] ++ outer := houter.order
    rw [horder, hinner.order, ← List.append_assoc, ← List.append_assoc]
    rfl
  case nodup =>
    rw [List.nodup_append, List.nodup_append]
    refine ⟨⟨hinner.nodup, List.nodup_singleton i, fun a ha b hb e => ?_⟩, houter.nodup, fun a ha b hb e => ?_⟩
    · rw [List.mem_singleton.1 hb] at e
      exact hinner.not_met ha (e ▸ hself)
    · rw [← e] at hb
      refine houter.not_met hb ((hput a).2 ?_)
      rcases List.mem_append.1 ha with ha | ha
      · exact (hinner.met a).2 (Or.inr ha)
      · exact List.mem_singleton.1 ha ▸ hself₁
  case met =>
    intro x
    rw [houter.met, hput, hinner.met, hmeet, List.mem_append, List.mem_append, List.mem_singleton]
    tauto
  case started =>
    intro j hj _
    rw [List.mem_singleton.1 hj]
    exact houter.met_of_met hself₁
  case placed => exact fun x hx y hxy => placed_define h hn hinner houter hx hxy
  all_goals simp only [List.mem_append, List.mem_singleton]
  case reached =>
    rintro x ((hx | rfl) | hx) <;> refine ⟨_, rfl, hi, ?_⟩
    · exact hinner.way_from (fun j hj => Or.inl ((hinto j).1 hj)) (fun j hj => (hmeet j).2 (Or.inl hj)) hx
    · exact .refl
    · exact houter.way_from (fun j hj => Or.inr ((honto j).1 hj)) hmono hx
  case closed =>
    rintro x ((hx | rfl) | hx) y hxy
    · exact houter.met_of_met (hinner.closed x hx y hxy)
    · rcases hxy with hin | hon
      · have hmet : t.Met s₁ y := met_of_contains h hn hinner hin
        exact houter.met_of_met hmet
      · exact houter.started y ((honto y).2 hon) (Mentions.lt (Or.inr hon))
    · exact houter.closed x hx y hxy

end Define

/-- surveys one after the other add up -/
theorem advances_foldl {survey : Survey → Nat → Survey} {room : Nat}
    (hstep : ∀ s i, t.unmet s < room → ∃ added, t.Advances [i] s (survey s i) added) (from' : List Nat) (s : Survey)
    (hroom : t.unmet s < room) : ∃ added, t.Advances from' s (from'.foldl survey s) added := by
  induction from' generalizing s with
  | nil => exact ⟨[], .refl (by simp)⟩
  | cons i rest ih =>
    obtain ⟨added, hadded⟩ := hstep s i hroom
    obtain ⟨more, hmore⟩ := ih (survey s i) ((unmet_le_of_met fun _ => hadded.met_of_met).trans_lt hroom)
    exact ⟨added ++ more, hadded.trans hmore⟩

/-- **A survey ends before its depth is used up**, and adds what it leads to. -/
theorem advances_survey (h : t.Indexed) (depth : Nat) (s : Survey) (i : Nat) (hroom : t.unmet s < depth) :
    ∃ added, t.Advances [i] s (t.survey depth s i) added := by
  induction depth generalizing s i with
  | zero => omega
  | succ depth ih =>
    rw [survey]
    cases hn : t.nodes[i]? with
    | none =>
      refine ⟨[], .refl fun j hj hlt => ?_⟩
      rw [List.mem_singleton.1 hj] at hlt
      exact absurd (List.getElem?_eq_none_iff.1 hn) (Nat.not_le.2 hlt)
    | some n =>
      simp only
      split_ifs with hmet
      · refine ⟨[], .refl fun j hj _ => ?_⟩
        rw [List.mem_singleton.1 hj]
        exact ⟨n, hn, by simpa using hmet⟩
      · have hno : n.id ∉ s.met := by simpa using hmet
        have hlt := unmet_meet_lt (List.mem_of_getElem? hn) hno
        obtain ⟨inner, hinner⟩ := advances_foldl ih ((t.children n.id).flatMap t.contained) (s.meet n) (by omega)
        have hle := unmet_le_of_met fun _ => hinner.met_of_met
        have hle' : t.unmet (Survey.put _ i) < depth := hle.trans_lt (hlt.trans_le (Nat.le_of_lt_succ hroom))
        obtain ⟨outer, houter⟩ := advances_foldl ih ((t.children n.id).flatMap t.pointedAt) _ hle'
        exact ⟨_, advances_define h hn hinner houter hno⟩

/-- the order is what a survey adds that starts from nothing -/
theorem advances_declarationOrder (h : t.Indexed) (from' : List Nat) :
    t.Advances from' ⟨[], []⟩ (from'.foldl (t.survey (t.nodes.length + 1)) ⟨[], []⟩) (t.declarationOrder from') := by
  have hroom : t.unmet ⟨[], []⟩ < t.nodes.length + 1 := Nat.lt_succ_of_le List.countP_le_length
  obtain ⟨added, hadded⟩ := advances_foldl (advances_survey h _) from' _ hroom
  have horder : t.declarationOrder from' = added := by rw [declarationOrder, hadded.order, List.nil_append]
  exact horder ▸ hadded

/-! ## Declarations -/

/-- where declarations start: from one id, or from all root structs -/
def starts (t : Tree) : Option NodeId → List Nat
  | some id => ((t.position? id).filter fun i => (t.nodes[i]?).any fun n => n.kind == .struct).toList
  | none => t.structRoots

/-- the structs that are declared, in order -/
def declared (t : Tree) (scope : Option NodeId) : List Nat := t.declarationOrder (t.starts scope)

def rendered (t : Tree) : Option NodeId → String
  | some id => t.declarations id
  | none => t.allDeclarations

theorem rendered_eq (t : Tree) (scope : Option NodeId) : t.rendered scope = t.declarationsOf (t.declared scope) := by
  cases scope <;> rfl

theorem lt_of_mem_starts {scope : Option NodeId} (hi : i ∈ t.starts scope) : i < t.nodes.length := by
  have hany : (t.nodes[i]?).any (fun n => n.kind == .struct) = true := by
    cases scope with
    | some id => exact (Option.filter_eq_some_iff.1 (Option.mem_toList.1 hi)).2
    | none => exact (List.mem_filter.1 hi).2
  obtain ⟨n, hn, -⟩ := (Option.any_eq_true _ _).1 hany
  exact (List.getElem?_eq_some_iff.1 hn).1

/-- **What a struct contains is declared before it, unless it comes back.** Declarations are in one order in which every
struct has one place; it has those they start from and all that these contain. A struct stands behind what it contains
that does not come back to it. -/
theorem contained_declared_first (h : t.Formed) (scope : Option NodeId) :
    t.rendered scope = t.declarationsOf (t.declared scope) ∧ (t.declared scope).Nodup ∧
    (∀ i ∈ t.starts scope, i ∈ t.declared scope) ∧
    ∀ x ∈ t.declared scope, ∀ y, t.Contains x y →
      y ∈ t.declared scope ∧ (¬ t.ComesBack y x → [y, x].Sublist (t.declared scope)) := by
  have hsurvey := advances_declarationOrder h.indexed (t.starts scope)
  have hnone : ∀ i, ¬ t.Met ⟨[], []⟩ i := by
    rintro i ⟨n, -, hid⟩
    exact List.not_mem_nil hid
  have hmet : ∀ i, t.Met _ i → i ∈ t.declared scope := fun i hi => ((hsurvey.met i).1 hi).resolve_left (hnone i)
  refine ⟨rendered_eq t scope, hsurvey.nodup, fun i hi => hmet i (hsurvey.started i hi (lt_of_mem_starts hi)),
    fun x hx y hxy => ⟨hmet y (hsurvey.closed x hx y (Or.inl hxy)), fun hback => ?_⟩⟩
  rcases hsurvey.placed x hx y hxy with hbefore | hopen | hback'
  · exact hbefore
  · exact absurd hopen.1 (hnone y)
  · exact absurd hback' hback

/-- a struct that contains a second one, which points at a third one, which contains the first -/
def crossedNodes : List Node :=
  [{ Node.rootStruct "a" "A" with id := 1 }, { Node.rootStruct "b" "B" with id := 2 },
    { Node.rootStruct "c" "C" with id := 3 }, { Node.field 1 0 .struct "inner" with id := 4, ref := 2 },
    { Node.field 2 0 .pointer64 "owner" with id := 5, ref := 3 }, { Node.field 3 0 .struct "part" with id := 6, ref := 1 }]

def crossed : Tree := crossedNodes.foldl push (empty 0)

theorem formed_crossed : crossed.Formed :=
  (wellFormed_ofNodes (show ofNodes 0 crossedNodes 1 = .ok crossed from rfl)).toFormed

theorem contains_crossed (h : crossed.Contains x y) : x = 0 ∧ y = 1 ∨ x = 2 ∧ y = 0 := by
  have hread : ∀ x < 6, ∀ y ∈ (crossed.childrenAt x).flatMap crossed.contained, x = 0 ∧ y = 1 ∨ x = 2 ∧ y = 0 := by decide
  obtain ⟨n, hn⟩ := h.exists_node
  refine hread x (List.getElem?_eq_some_iff.1 hn).1 y ?_
  rw [childrenAt, hn]
  exact (mem_contained_iff formed_crossed.indexed hn).2 h

theorem crossed_contains :
    crossed.Contains 0 1 ∧ crossed.PointsAt 1 2 ∧ crossed.Contains 2 0 :=
  ⟨(mem_contained_iff formed_crossed.indexed (n := crossedNodes[0]) rfl).1 (by decide),
    (mem_pointedAt_iff formed_crossed.indexed (n := crossedNodes[1]) rfl).1 (by decide),
    (mem_contained_iff formed_crossed.indexed (n := crossedNodes[2]) rfl).1 (by decide)⟩

/-- the second struct is declared before the first, although it leads on to the first -/
theorem contained_declared_first_crossed : crossed.Contains 0 1 ∧ ¬ crossed.ComesBack 1 0 ∧
    ReflTransGen crossed.Mentions 1 0 ∧ [1, 0].Sublist (crossed.declared none) := by
  obtain ⟨hin, hon, hout⟩ := crossed_contains
  have hback : ¬ crossed.ComesBack 1 0 := by
    rintro (e | ⟨z, hz, -⟩)
    · exact absurd e (by decide)
    · have := contains_crossed hz
      omega
  have hdeclared : 0 ∈ crossed.declared none := by decide
  exact ⟨hin, hback, .head (Or.inr hon) (.single (Or.inl hout)),
    ((contained_declared_first formed_crossed none).2.2.2 0 hdeclared 1 hin).2 hback⟩

/-- **A struct can be declared before one that it contains.** Containment runs in no ring, but the second struct waits for
nothing and leads on to the third while the first is still waiting. -/
theorem not_declared_first_crossed : crossed.Formed ∧ (∀ x, ¬ TransGen crossed.Contains x x) ∧ crossed.Contains 2 0 ∧
    crossed.rendered (some 1) = crossed.declarationsOf [1, 2, 0] ∧
    crossed.rendered none = crossed.declarationsOf [1, 2, 0] ∧ ¬ [0, 2].Sublist [1, 2, 0] := by
  refine ⟨formed_crossed, fun x hx => ?_, crossed_contains.2.2, ?_, ?_, by decide⟩
  · -- the third struct is larger than the first, and the first than the second
    have hlarger : ∀ {x y}, TransGen crossed.Contains x y → [1, 0, 2].idxOf y < [1, 0, 2].idxOf x := by
      intro x y hxy
      induction hxy with
      | single h => rcases contains_crossed h with ⟨rfl, rfl⟩ | ⟨rfl, rfl⟩ <;> decide
      | tail _ h ih => rcases contains_crossed h with ⟨rfl, rfl⟩ | ⟨rfl, rfl⟩ <;> exact lt_trans (by decide) ih
    exact lt_irrefl _ (hlarger hx)
  · rw [rendered_eq, show crossed.declared (some 1) = [1, 2, 0] by decide]
  · rw [rendered_eq, show crossed.declared none = [1, 2, 0] by decide]

end ByteAtlas.Tree
