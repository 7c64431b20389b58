/-
The listing as it runs. A definition is opened inside a node that refers to it, and references may form any graph. What keeps
the listing from going round is a set of definitions that are open, and the rule that a definition is not opened inside
itself.

- `Tree.Lists`: a part of a listing that comes to its end, with the open definitions before and after it, and its events: the
  rows, and where definitions are opened and closed.
- `replay`: the definitions that are open after some events. Replaying fails where one is opened that is open.
- `Lists.replay_eq`, `Lists.untouched`: no part opens what is open, and what it opens it closes.
- `ends_node`: listing a node ends, and its rows are its block. Between two openings the way down passes children only, and
  with every opening one definition less is left to be opened.
- `Lists.unique`: a part has one course.
- `listing_ends`: so the whole listing ends, and so do the computations of sizes.
-/
import ByteAtlas.Proofs.Listing.Blocks
import ByteAtlas.Proofs.Tree.Sizing

namespace ByteAtlas

namespace Listing

/-- what happens while a tree is listed -/
inductive Event where
  | row (r : Row)
  /-- what follows is the inside of a definition -/
  | opens (d : NodeId)
  | closes (d : NodeId)

def rowsOf (es : List Event) : List Row := es.filterMap fun
  | .row r => some r
  | _ => none

/-- the definitions that are open after an event; none can be opened that is open, or closed that is not -/
def Event.follow (s : Finset NodeId) : Event → Option (Finset NodeId)
  | row _ => some s
  | opens d => if d ∈ s then none else some (Insert.insert d s)
  | closes d => if d ∈ s then some (s.erase d) else none

def replay (s : Finset NodeId) (es : List Event) : Option (Finset NodeId) := es.foldlM Event.follow s

inductive Part where
  /-- the node at a position -/
  | node (i : Nat) (address : UInt64) (depth : Nat)
  /-- nodes side by side, each with an address of its own -/
  | nodes (place : Nat → UInt64) (depth : Nat) (cs : List Nat)
  /-- what is shown inside the node at a position -/
  | inside (i : Nat) (address : UInt64) (depth : Nat)
  /-- the inside of a definition, if there is one -/
  | definition (d : Option NodeId) (address : UInt64) (depth : Nat)
  /-- elements of an array with these numbers, a definition inside each of them -/
  | elements (n : Node) (d : Option NodeId) (stride address : UInt64) (depth : Nat) (ks : List Nat)

/-- whether no open definition is to be opened -/
def Part.Free (s : Finset NodeId) : Part → Prop
  | .definition d _ _ => ∀ x ∈ d, x ∉ s
  | .elements _ d _ _ _ _ => ∀ x ∈ d, x ∉ s
  | _ => True

end Listing

namespace Tree

open Listing

/-- the row in place of elements that are not shown, if there are any -/
def restRow (o : Options) (n : Node) (stride address : UInt64) (depth : Nat) : List Row :=
  let shown := min n.arrayLen o.maxElements
  let rest := n.arrayLen - shown
  if shown < n.arrayLen then [truncatedRow n rest (address + shown * stride) (Word.satMul rest stride) depth] else []

/-- A part of a listing that comes to its end: the definitions that are open before it, what is listed, the events, and the
definitions that are open after it. -/
inductive Lists (t : Tree) (o : Options) : Finset NodeId → Part → List Event → Finset NodeId → Prop
  | leaf {s : Finset NodeId} {i depth : Nat} {n : Node} {address : UInt64} : t.nodes[i]? = some n → ¬ n.kind.canHold →
      Lists t o s (.node i address depth) [.row (t.row n n.kind.role address (t.size i) depth)] s
  | folded {s : Finset NodeId} {i depth : Nat} {n : Node} {address : UInt64} : t.nodes[i]? = some n → n.kind.canHold →
      n.collapsed → Lists t o s (.node i address depth) [.row (t.row n n.kind.role address (t.size i) depth)] s
  | unfolded {s s' : Finset NodeId} {i depth : Nat} {n : Node} {address : UInt64} {es : List Event} :
      t.nodes[i]? = some n → n.kind.canHold → ¬ n.collapsed → Lists t o s (.inside i address depth) es s' →
      Lists t o s (.node i address depth) (.row (t.row n n.kind.role address (t.size i) depth) ::
        (es ++ [.row (t.row n .footer (address + t.size i) 0 depth)])) s'
  | none {s : Finset NodeId} {place : Nat → UInt64} {depth : Nat} : Lists t o s (.nodes place depth []) [] s
  | next {s s' s'' : Finset NodeId} {place : Nat → UInt64} {depth c : Nat} {cs : List Nat} {es es' : List Event} :
      Lists t o s (.node c (place c) depth) es s' → Lists t o s' (.nodes place depth cs) es' s'' →
      Lists t o s (.nodes place depth (c :: cs)) (es ++ es') s''
  | held {s s' : Finset NodeId} {i depth : Nat} {n : Node} {address : UInt64} {es : List Event} : t.nodes[i]? = some n →
      n.kind.canHold → t.children n.id ≠ [] →
      Lists t o s (.nodes (fun c => address + t.offsetAt c) (depth + 1) (t.children n.id)) es s' →
      Lists t o s (.inside i address depth) es s'
  | embedded {s s' : Finset NodeId} {i depth : Nat} {n : Node} {address : UInt64} {es : List Event} :
      t.nodes[i]? = some n → n.kind = .struct → t.children n.id = [] →
      Lists t o s (.definition (t.definitionIn o s.toList n) address (depth + 1)) es s' →
      Lists t o s (.inside i address depth) es s'
  | array {s s' : Finset NodeId} {i depth : Nat} {n : Node} {address : UInt64} {es : List Event} :
      t.nodes[i]? = some n → n.kind = .array → t.children n.id = [] →
      Lists t o s (.elements n (t.definitionIn o s.toList n) (t.stride i) address (depth + 1)
        (List.range (min n.arrayLen o.maxElements).toNat)) es s' →
      Lists t o s (.inside i address depth)
        (es ++ (restRow o n (t.stride i) address (depth + 1)).map .row) s'
  | undefined {s : Finset NodeId} {address : UInt64} {depth : Nat} : Lists t o s (.definition Option.none address depth) [] s
  /-- a definition is open while its members are listed -/
  | defined {s s' : Finset NodeId} {d : NodeId} {address : UInt64} {depth : Nat} {es : List Event} :
      Lists t o (Insert.insert d s) (.nodes (fun c => address + t.offsetAt c) depth (t.children d)) es s' →
      Lists t o s (.definition (some d) address depth) (.opens d :: (es ++ [.closes d])) (s'.erase d)
  | noElement {s : Finset NodeId} {n : Node} {d : Option NodeId} {stride address : UInt64} {depth : Nat} :
      Lists t o s (.elements n d stride address depth []) [] s
  | element {s s' s'' : Finset NodeId} {n : Node} {d : Option NodeId} {stride address : UInt64} {depth k : Nat}
      {ks : List Nat} {es es' : List Event} :
      Lists t o s (.definition d (address + UInt64.ofNat k * stride) (depth + 1)) es s' →
      Lists t o s' (.elements n d stride address depth ks) es' s'' →
      Lists t o s (.elements n d stride address depth (k :: ks))
        (.row (t.elementRow n (UInt64.ofNat k) (address + UInt64.ofNat k * stride) stride depth) :: (es ++ es')) s''

variable {t : Tree} {o : Options} {s s' : Finset NodeId} {p : Part} {es : List Event} {i : Nat} {n : Node} {d : NodeId}

/-! ## What is open -/

/-- what is open matters as a set -/
theorem definitionIn_toList (l : List NodeId) (n : Node) :
    t.definitionIn o l.toFinset.toList n = t.definitionIn o l n := by
  have hcontains : l.toFinset.toList.contains n.ref = l.contains n.ref := by simp
  rw [definitionIn, definitionIn, opening, opening, hcontains]

theorem not_mem_of_definitionIn (x : NodeId) (hx : x ∈ t.definitionIn o s.toList n) : x ∉ s := by
  simpa using (definitionIn_eq_some hx).2.2.1

theorem replay_append (s : Finset NodeId) (es es' : List Event) :
    replay s (es ++ es') = (replay s es).bind (replay · es') := List.foldlM_append

theorem replay_cons (s : Finset NodeId) (e : Event) (es : List Event) :
    replay s (e :: es) = (e.follow s).bind (replay · es) := rfl

theorem replay_row (s : Finset NodeId) (r : Row) (es : List Event) : replay s (.row r :: es) = replay s es := rfl

theorem replay_rows (s : Finset NodeId) (rs : List Row) : replay s (rs.map .row) = some s := by
  induction rs with
  | nil => rfl
  | cons r rest ih => exact ih

/-- **A part of a listing opens nothing that is open, and closes what it opens.** -/
theorem Lists.replay_eq (hl : t.Lists o s p es s') (hp : p.Free s) : replay s es = some s ∧ s' = s := by
  induction hl with
  | leaf | folded | none | undefined | noElement => exact ⟨rfl, rfl⟩
  | unfolded _ _ _ _ ih =>
    obtain ⟨hes, rfl⟩ := ih trivial
    exact ⟨by rw [replay_row, replay_append, hes, Option.bind_some, replay_row]; rfl, rfl⟩
  | next _ _ ih ih' =>
    obtain ⟨hes, rfl⟩ := ih trivial
    obtain ⟨hes', rfl⟩ := ih' trivial
    exact ⟨by rw [replay_append, hes, Option.bind_some, hes'], rfl⟩
  | held _ _ _ _ ih => exact ih trivial
  | embedded _ _ _ _ ih => exact ih not_mem_of_definitionIn
  | array _ _ _ _ ih =>
    obtain ⟨hes, rfl⟩ := ih not_mem_of_definitionIn
    exact ⟨by rw [replay_append, hes, Option.bind_some, replay_rows], rfl⟩
  | @defined s s' d _ _ es _ ih =>
    have hno : d ∉ s := hp d rfl
    have hopens : (Event.opens d).follow s = some (Insert.insert d s) := if_neg hno
    have hcloses : (Event.closes d).follow (Insert.insert d s) = some s := by
      rw [Event.follow, if_pos (Finset.mem_insert_self d s), Finset.erase_insert hno]
    obtain ⟨hes, rfl⟩ := ih trivial
    refine ⟨?_, Finset.erase_insert hno⟩
    rw [replay_cons, hopens, Option.bind_some, replay_append, hes, Option.bind_some, replay_cons, hcloses]
    rfl
  | element _ _ ih ih' =>
    obtain ⟨hes, rfl⟩ := ih hp
    obtain ⟨hes', rfl⟩ := ih' hp
    exact ⟨by rw [replay_row, replay_append, hes, Option.bind_some, hes'], rfl⟩

/-- what is open before a part of a listing is neither opened nor closed in it -/
theorem Lists.untouched (hl : t.Lists o s p es s') (hp : p.Free s) (hd : d ∈ s) :
    Event.opens d ∉ es ∧ Event.closes d ∉ es := by
  induction hl with
  | leaf | folded | none | undefined | noElement => simp
  | unfolded _ _ _ _ ih =>
    obtain ⟨hopens, hcloses⟩ := ih trivial hd
    simp [hopens, hcloses]
  | next hc _ ih ih' =>
    obtain ⟨hopens, hcloses⟩ := ih trivial hd
    obtain ⟨-, rfl⟩ := hc.replay_eq trivial
    obtain ⟨hopens', hcloses'⟩ := ih' trivial hd
    simp [hopens, hcloses, hopens', hcloses']
  | held _ _ _ _ ih => exact ih trivial hd
  | embedded _ _ _ _ ih => exact ih not_mem_of_definitionIn hd
  | array _ _ _ _ ih =>
    obtain ⟨hopens, hcloses⟩ := ih not_mem_of_definitionIn hd
    simp [hopens, hcloses]
  | @defined s s' x _ _ es _ ih =>
    obtain ⟨hopens, hcloses⟩ := ih trivial (Finset.mem_insert_of_mem hd)
    have hne : d ≠ x := fun e => hp x rfl (e ▸ hd)
    simp [hopens, hcloses, hne]
  | element hin _ ih ih' =>
    obtain ⟨hopens, hcloses⟩ := ih hp hd
    obtain ⟨-, rfl⟩ := hin.replay_eq hp
    obtain ⟨hopens', hcloses'⟩ := ih' hp hd
    simp [hopens, hcloses, hopens', hcloses']

/-- what is open stays open until it is closed, and is not opened before -/
theorem not_opens_of_replay {u u' : Finset NodeId} {inside : List Event} (hu : replay u inside = some u') (hd : d ∈ u)
    (hno : Event.closes d ∉ inside) : Event.opens d ∉ inside := by
  induction inside generalizing u with
  | nil => exact List.not_mem_nil
  | cons e rest ih =>
    rw [List.mem_cons, not_or] at hno ⊢
    rw [replay_cons, Option.bind_eq_some_iff] at hu
    obtain ⟨v, hv, hrest⟩ := hu
    cases e with
    | row r =>
      obtain rfl := Option.some.inj hv
      exact ⟨by simp, ih hrest hd hno.2⟩
    | opens x =>
      rw [Event.follow] at hv
      split_ifs at hv with hx
      obtain rfl := Option.some.inj hv
      refine ⟨?_, ih hrest (Finset.mem_insert_of_mem hd) hno.2⟩
      rintro ⟨rfl⟩
      exact hx hd
    | closes x =>
      rw [Event.follow] at hv
      split_ifs at hv with hx
      obtain rfl := Option.some.inj hv
      have hne : d ≠ x := by
        rintro rfl
        exact hno.1 rfl
      exact ⟨by simp, ih hrest (Finset.mem_erase.2 ⟨hne, hd⟩) hno.2⟩

/-- **Between opening a definition and closing it, it is not opened again.** -/
theorem not_opened_again {u u' : Finset NodeId} {before inside after : List Event}
    (hes : replay u (before ++ .opens d :: (inside ++ after)) = some u') (hno : Event.closes d ∉ inside) :
    Event.opens d ∉ inside := by
  rw [replay_append, Option.bind_eq_some_iff] at hes
  obtain ⟨v, -, hes⟩ := hes
  rw [replay_cons, Option.bind_eq_some_iff] at hes
  obtain ⟨v', hv, hes⟩ := hes
  rw [replay_append, Option.bind_eq_some_iff] at hes
  obtain ⟨v'', hinside, -⟩ := hes
  refine not_opens_of_replay hinside ?_ hno
  rw [Event.follow] at hv
  split_ifs at hv
  obtain rfl := Option.some.inj hv
  exact Finset.mem_insert_self d v

/-! ## Every part ends -/

theorem rowsOf_append (es es' : List Event) : rowsOf (es ++ es') = rowsOf es ++ rowsOf es' := List.filterMap_append

theorem rowsOf_row (r : Row) (es : List Event) : rowsOf (.row r :: es) = r :: rowsOf es := rfl

theorem rowsOf_rows (rs : List Row) : rowsOf (rs.map .row) = rs := by
  induction rs with
  | nil => rfl
  | cons r rest ih => rw [List.map_cons, rowsOf_row, ih]

/-- a part ends with these rows, and what is open is left as it was -/
def Ends (t : Tree) (o : Options) (s : Finset NodeId) (p : Part) (rows : List Row) : Prop :=
  ∃ es, t.Lists o s p es s ∧ rowsOf es = rows

theorem ends_nodes {place : Nat → UInt64} {depth : Nat} {cs : List Nat} {f : Nat → List Row}
    (hnode : ∀ c ∈ cs, t.Ends o s (.node c (place c) depth) (f c)) : t.Ends o s (.nodes place depth cs) (cs.flatMap f) := by
  induction cs with
  | nil => exact ⟨[], .none, rfl⟩
  | cons c rest ih =>
    obtain ⟨hc, hrest⟩ := List.forall_mem_cons.1 hnode
    obtain ⟨es, hes, hrows⟩ := hc
    obtain ⟨es', hes', hrows'⟩ := ih hrest
    exact ⟨es ++ es', .next hes hes', by rw [rowsOf_append, hrows, hrows', List.flatMap_cons]⟩

theorem ends_definition {address : UInt64} {depth : Nat} {rows : List Row} (hno : d ∉ s)
    (hin : t.Ends o (Insert.insert d s) (.nodes (fun c => address + t.offsetAt c) depth (t.children d)) rows) :
    t.Ends o s (.definition (some d) address depth) rows := by
  obtain ⟨es, hes, hrows⟩ := hin
  have hend := Lists.defined hes
  rw [Finset.erase_insert hno] at hend
  refine ⟨_, hend, ?_⟩
  show rowsOf (es ++ [.closes d]) = rows
  rw [rowsOf_append, hrows]
  exact List.append_nil rows

theorem ends_elements {depth : Nat} {d : Option NodeId} {f : UInt64 → List Row}
    (hin : ∀ element, t.Ends o s (.definition d element (depth + 1)) (f element)) (n : Node) (stride address : UInt64)
    (ks : List Nat) : t.Ends o s (.elements n d stride address depth ks) (ks.flatMap fun k =>
      t.elementRow n (UInt64.ofNat k) (address + UInt64.ofNat k * stride) stride depth ::
        f (address + UInt64.ofNat k * stride)) := by
  induction ks with
  | nil => exact ⟨[], .noElement, rfl⟩
  | cons k rest ih =>
    obtain ⟨es, hes, hrows⟩ := hin (address + UInt64.ofNat k * stride)
    obtain ⟨es', hes', hrows'⟩ := ih
    refine ⟨_, .element hes hes', ?_⟩
    rw [rowsOf_row, rowsOf_append, hrows, hrows', List.flatMap_cons, List.cons_append]

/-- a struct or an array ends when what is shown inside it does -/
theorem ends_bracket {address : UInt64} {depth : Nat} {inside : List Row} (hn : t.nodes[i]? = some n)
    (hk : n.kind.canHold) (hin : t.Ends o s (.inside i address depth) inside) :
    t.Ends o s (.node i address depth) (t.bracket n n.kind.role address (t.size i) depth inside) := by
  unfold bracket
  split_ifs with hfold
  · exact ⟨_, .folded hn hk hfold, rfl⟩
  · obtain ⟨es, hes, hrows⟩ := hin
    refine ⟨_, .unfolded hn hk hfold hes, ?_⟩
    rw [rowsOf_row, rowsOf_append, hrows]
    rfl

/-- how far the way down can go on: one definition less is left with each opening, and between two of them the way passes
children -/
def room (t : Tree) (level : NodeId → Nat) (s : Finset NodeId) (id : NodeId) : Nat :=
  t.outside s * (t.nodes.length + 1) + (t.nodes.length - level id)

variable {level : NodeId → Nat}

theorem room_child (hlen : ∀ n ∈ t.nodes, level n.id < t.nodes.length)
    (hlevel : ∀ n ∈ t.nodes, n.parent ≠ 0 → level n.parent < level n.id) {m : Node} (hm : m ∈ t.nodes)
    (hz : m.parent ≠ 0) : t.room level s m.id < t.room level s m.parent := by
  have hlt := hlevel m hm hz
  have hle := hlen m hm
  unfold room
  omega

theorem room_opened (hlen : ∀ n ∈ t.nodes, level n.id < t.nodes.length)
    (hlevel : ∀ n ∈ t.nodes, n.parent ≠ 0 → level n.parent < level n.id) {m : Node} (hm : m ∈ t.nodes)
    (hz : m.parent ≠ 0) (hd : ∃ k ∈ t.nodes, k.id = m.parent) (hno : m.parent ∉ s) (id : NodeId) :
    t.room level (Insert.insert m.parent s) m.id < t.room level s id := by
  obtain ⟨k, hk, hkid⟩ := hd
  have hlt := outside_insert_lt (s := s) hk (by rwa [hkid])
  have hle := hlen m hm
  have hpos := hlevel m hm hz
  rw [hkid] at hlt
  have hmul := Nat.mul_le_mul_right (t.nodes.length + 1) (Nat.succ_le_of_lt hlt)
  rw [Nat.succ_mul] at hmul
  unfold room
  omega

/-- what is shown inside a node ends if the members of the node and those of the definition that is opened do -/
theorem ends_inside {fuel : Nat} {l : List NodeId} (hn : t.nodes[i]? = some n) (hk : n.kind.canHold)
    (hheld : ∀ address depth, t.Ends o l.toFinset (.nodes (fun c => address + t.offsetAt c) depth (t.children n.id))
      (t.heldRows (t.block o fuel l) n.id address depth))
    (hopened : ∀ address depth, t.Ends o l.toFinset (.definition (t.definitionIn o l n) address depth)
      (t.definitionRows o fuel l (t.definitionIn o l n) address depth)) (address : UInt64) (depth : Nat) :
    t.Ends o l.toFinset (.inside i address depth) (t.insideRows o fuel l i n address (depth + 1)) := by
  unfold insideRows
  split_ifs with hempty harray
  · obtain ⟨es, hes, hrows⟩ := ends_elements (fun element => hopened element (depth + 1 + 1)) n (t.stride i) address
      (List.range (min n.arrayLen o.maxElements).toNat)
    rw [← definitionIn_toList] at hes
    refine ⟨_, .array hn harray (List.isEmpty_iff.1 hempty) hes, ?_⟩
    rw [rowsOf_append, hrows, rowsOf_rows]
    rfl
  · have hstruct : n.kind = .struct := (Kind.canHold_iff.1 hk).resolve_right harray
    obtain ⟨es, hes, hrows⟩ := hopened address (depth + 1)
    rw [← definitionIn_toList] at hes
    exact ⟨es, .embedded hn hstruct (List.isEmpty_iff.1 hempty) hes, hrows⟩
  · obtain ⟨es, hes, hrows⟩ := hheld address (depth + 1)
    exact ⟨es, .held hn hk (fun hnone => hempty (List.isEmpty_iff.2 hnone)) hes, hrows⟩

/-- **Listing a node ends** if it may be nested deeper than there is room, and its rows are its block. -/
theorem ends_node (h : t.Formed) (hlen : ∀ n ∈ t.nodes, level n.id < t.nodes.length)
    (hlevel : ∀ n ∈ t.nodes, n.parent ≠ 0 → level n.parent < level n.id) {fuel : Nat} {l : List NodeId}
    (hn : t.nodes[i]? = some n) (hroom : t.room level l.toFinset n.id < fuel) (address : UInt64) (depth : Nat) :
    t.Ends o l.toFinset (.node i address depth) (t.block o fuel l i address depth) := by
  induction fuel generalizing l i n address depth with
  | zero => omega
  | succ fuel ih =>
    by_cases hk : n.kind.canHold
    · rw [block_of_canHold hn hk]
      refine ends_bracket hn hk (ends_inside hn hk ?_ ?_ address depth)
      · intro address depth
        refine ends_nodes fun c hc => ?_
        obtain ⟨m, hm, hp⟩ := mem_children.1 hc
        have hz : m.parent ≠ 0 := hp ▸ h.forest.nonzero n (List.mem_of_getElem? hn)
        have hlt := room_child (s := l.toFinset) hlen hlevel (List.mem_of_getElem? hm) hz
        rw [hp] at hlt
        exact ih hm (by omega) _ _
      · intro address depth
        cases hd : t.definitionIn o l n with
        | none => exact ⟨[], .undefined, rfl⟩
        | some d =>
          obtain ⟨-, -, hno, k, hk, -⟩ := definitionIn_eq_some hd
          obtain ⟨hkmem, hkid⟩ := (find?_eq_some_iff h.indexed).1 hk
          have hno' : d ∉ l.toFinset := by simpa using hno
          refine ends_definition hno' (ends_nodes fun c hc => ?_)
          obtain ⟨m, hm, hp⟩ := mem_children.1 hc
          have hz : m.parent ≠ 0 := hp ▸ hkid ▸ h.forest.nonzero k hkmem
          have hlt := room_opened hlen hlevel (List.mem_of_getElem? hm) hz ⟨k, hkmem, hkid.trans hp.symm⟩ (hp ▸ hno') n.id
          rw [hp, ← List.toFinset_cons] at hlt
          have hend := ih (l := d :: l) hm (by omega) (address + t.offsetAt c) depth
          rwa [List.toFinset_cons] at hend
    · rw [block_of_not_canHold hn hk]
      exact ⟨_, .leaf hn hk, rfl⟩

/-! ## One result -/

/-- a part of a listing has one course, and leaves one set of definitions open -/
theorem Lists.unique {es' : List Event} {s'' : Finset NodeId} (hl : t.Lists o s p es s') (hl' : t.Lists o s p es' s'') :
    es = es' ∧ s' = s'' := by
  induction hl generalizing es' s'' with
  | leaf hn hk =>
    cases hl' with
    | leaf hn' _ =>
      obtain rfl := Option.some.inj (hn.symm.trans hn')
      exact ⟨rfl, rfl⟩
    | _ => simp_all
  | folded hn hk hfold =>
    cases hl' with
    | folded hn' _ _ =>
      obtain rfl := Option.some.inj (hn.symm.trans hn')
      exact ⟨rfl, rfl⟩
    | _ => simp_all
  | unfolded hn hk hfold _ ih =>
    cases hl' with
    | unfolded hn' _ _ hin =>
      obtain rfl := Option.some.inj (hn.symm.trans hn')
      obtain ⟨rfl, rfl⟩ := ih hin
      exact ⟨rfl, rfl⟩
    | _ => simp_all
  | none | undefined | noElement =>
    cases hl'
    exact ⟨rfl, rfl⟩
  | next _ _ ihc ihcs =>
    cases hl' with
    | next hc hcs =>
      obtain ⟨rfl, rfl⟩ := ihc hc
      obtain ⟨rfl, rfl⟩ := ihcs hcs
      exact ⟨rfl, rfl⟩
  | held hn hk hne _ ih =>
    cases hl' with
    | held hn' _ _ hnodes =>
      obtain rfl := Option.some.inj (hn.symm.trans hn')
      exact ih hnodes
    | _ => simp_all
  | embedded hn hk hempty _ ih =>
    cases hl' with
    | embedded hn' _ _ hdefinition =>
      obtain rfl := Option.some.inj (hn.symm.trans hn')
      exact ih hdefinition
    | _ => simp_all
  | array hn hk hempty _ ih =>
    cases hl' with
    | array hn' _ _ helements =>
      obtain rfl := Option.some.inj (hn.symm.trans hn')
      obtain ⟨rfl, rfl⟩ := ih helements
      exact ⟨rfl, rfl⟩
    | _ => simp_all
  | defined _ ih =>
    cases hl' with
    | defined hnodes =>
      obtain ⟨rfl, rfl⟩ := ih hnodes
      exact ⟨rfl, rfl⟩
  | element _ _ ih ihs =>
    cases hl' with
    | element hdefinition helements =>
      obtain ⟨rfl, rfl⟩ := ih hdefinition
      obtain ⟨rfl, rfl⟩ := ihs helements
      exact ⟨rfl, rfl⟩

theorem endsWith_of_lists (hl : t.Lists o s p es s) : EndsWith (t.Lists o · p) s es := by
  intro es' s'
  constructor
  · intro hl'
    obtain ⟨rfl, rfl⟩ := hl.unique hl'
    exact ⟨rfl, rfl⟩
  · rintro ⟨rfl, rfl⟩
    exact hl

/-! ## The whole listing -/

theorem room_lt (t : Tree) (level : NodeId → Nat) (s : Finset NodeId) (id : NodeId) :
    t.room level s id < t.nestingBound := by
  have hmul := Nat.mul_le_mul_right (t.nodes.length + 1) (t.outside_le s)
  have hbound : t.nestingBound = t.nodes.length * (t.nodes.length + 1) + 2 * (t.nodes.length + 1) := by
    unfold nestingBound
    ring
  unfold room
  omega

/-- whatever is open, listing a node ends -/
theorem ends_block (h : t.Formed) (s : Finset NodeId) (hn : t.nodes[i]? = some n) (address : UInt64) (depth : Nat) :
    t.Ends o s (.node i address depth) (t.block o t.nestingBound s.toList i address depth) := by
  obtain ⟨level, hlen, hlevel⟩ := h.forest.exists_depth
  have hend := ends_node (o := o) (l := s.toList) h hlen hlevel hn (t.room_lt level _ _) address depth
  rwa [Finset.toList_toFinset] at hend

/-- whatever is open, listing the members of a node side by side ends -/
theorem ends_children (h : t.Formed) (s : Finset NodeId) (parent : NodeId) (place : Nat → UInt64) (depth : Nat) :
    t.Ends o s (.nodes place depth (t.children parent))
      ((t.children parent).flatMap fun c => t.block o t.nestingBound s.toList c (place c) depth) := by
  refine ends_nodes fun c hc => ?_
  obtain ⟨m, hm, -⟩ := mem_children.1 hc
  exact ends_block h s hm _ _

/-- what is opened inside a node is closed again, and is not opened in between -/
theorem exists_definition (h : t.Formed) (hd : t.definitionIn o s.toList n = some d) (address : UInt64) (depth : Nat) :
    ∃ es, EndsWith (t.Lists o · (.definition (some d) address depth)) s (.opens d :: (es ++ [.closes d])) ∧
      Event.opens d ∉ es := by
  have hno : d ∉ s := not_mem_of_definitionIn d hd
  obtain ⟨es, hes, -⟩ := ends_children (o := o) h (Insert.insert d s) d (fun c => address + t.offsetAt c) depth
  have hend := Lists.defined hes
  rw [Finset.erase_insert hno] at hend
  exact ⟨es, endsWith_of_lists hend, (hes.untouched trivial (Finset.mem_insert_self d s)).1⟩

/-- **Listings end, and so do the computations of sizes, whatever refers to what.** Whichever ids are in progress, measuring a
node or the elements of an array ends, with one result, and so does listing a node and opening a definition; the ids in
progress are then those from before. Within the inside of a definition that definition is not opened, and in the whole
listing none is opened between being opened and closed. With nothing in progress the results are the sizes, the distances
and the rows of the tree. -/
theorem listing_ends (h : t.Formed) (o : Options) :
    (∀ s i, (∃ w, EndsWith (t.Measures · (.size i)) s w) ∧ ∃ w, EndsWith (t.Measures · (.stride i)) s w) ∧
    (∀ i, t.Measures ∅ (.size i) (t.size i) ∅ ∧ t.Measures ∅ (.stride i) (t.stride i) ∅) ∧
    (∀ s i n address depth, t.nodes[i]? = some n → ∃ es, EndsWith (t.Lists o · (.node i address depth)) s es) ∧
    (∀ s n d address depth, t.definitionIn o s.toList n = some d → ∃ es,
      EndsWith (t.Lists o · (.definition (some d) address depth)) s (.opens d :: (es ++ [.closes d])) ∧
        Event.opens d ∉ es) ∧
    ∃ es, EndsWith (t.Lists o · (.nodes t.address 0 t.roots)) ∅ es ∧ rowsOf es = t.listing o ∧
      ∀ d before inside after, es = before ++ .opens d :: (inside ++ after) → Event.closes d ∉ inside →
        Event.opens d ∉ inside := by
  refine ⟨fun s i => ⟨t.exists_size s i, t.exists_stride s i⟩, fun i => ⟨t.measures_size i, t.measures_stride i⟩, ?_,
    fun s n d address depth hd => exists_definition h hd address depth, ?_⟩
  · intro s i n address depth hn
    obtain ⟨es, hes, -⟩ := ends_block (o := o) h s hn address depth
    exact ⟨es, endsWith_of_lists hes⟩
  · obtain ⟨es, hes, hrows⟩ := ends_children (o := o) h ∅ 0 t.address 0
    rw [Finset.toList_empty] at hrows
    refine ⟨es, endsWith_of_lists hes, hrows, ?_⟩
    rintro d before inside after rfl hno
    exact not_opened_again (hes.replay_eq trivial).1 hno

/-- two structs: the first has the second inside and itself once more, the second has a row of the first inside -/
def ringNodes : List Node :=
  [{ Node.rootStruct "a" "A" with id := 1 }, { Node.rootStruct "b" "B" with id := 2, offset := 0x10 },
    { Node.field 1 0 .struct "inner" with id := 3, ref := 2 }, { Node.field 1 8 .struct "self" with id := 4, ref := 1 },
    { Node.array 2 0 "row" .struct 1 with id := 5, ref := 1 }]

def ringTree : Tree := ringNodes.foldl push (empty 0)

/-- The listing of two structs inside each other ends, and so does opening the second in the first: in the row of the first
that it holds it is not opened again. -/
theorem listing_ends_ring :
    (∃ es, EndsWith (ringTree.Lists .standard · (.nodes ringTree.address 0 ringTree.roots)) ∅ es ∧
      rowsOf es = ringTree.listing .standard) ∧
    (∃ es, EndsWith (ringTree.Lists .standard · (.definition (some 2) 0 1)) ∅ (.opens 2 :: (es ++ [.closes 2])) ∧
      Event.opens 2 ∉ es) ∧
    ((ringTree.listing .standard).take 9).map (·.name) =
      ["a", "inner", "row", "[0]", "inner", "inner", "self", "self", "row"] := by
  have h : ringTree.Formed := (wellFormed_ofNodes (show ofNodes 0 ringNodes 1 = .ok ringTree from rfl)).toFormed
  obtain ⟨-, -, -, hdefinition, es, hes, hrows, -⟩ := listing_ends h .standard
  have hopened : ringTree.definitionIn .standard (∅ : Finset NodeId).toList ringNodes[2] = some 2 := by
    rw [Finset.toList_empty]
    decide
  exact ⟨⟨es, hes, hrows⟩, hdefinition ∅ _ 2 0 1 hopened, by decide⟩

end Tree

end ByteAtlas
