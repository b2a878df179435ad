import Mathlib.Data.List.Induction
import Mathlib.Data.List.Perm.Subperm
import Mathlib.Data.Nat.Find
import RegexMachine.Proofs.Branches

/-!
# Proofs/Route — the ways through a program and an input, and which of them comes first

A **walk** starts at one of the entries of the program and follows branches; it is a **route** if
it passes no site twice and ends at an `accept`. Two routes part at some site, and the one that
takes the earlier branch there precedes the other (`Precedes`). If there is a route at all then
there is a first one (`exists_isFirst`), and no walk that passes no site twice reaches a site of the
first route in a way that precedes it (`IsFirst.not_precedes`).
-/

namespace RegexMachine

/-- A way from an entry of a program to a site, **the last site first**; with every site goes the
number of the branch that led to it. -/
abbrev Trail := List (Nat × Site)

/-! ## Trails -/

namespace Query

variable {α : Type} [CodeUnit α] (q : Query α)

/-- The registers of a thread that has run the instructions along a trail. -/
def registersAfter (w : Trail) : Registers :=
  w.foldr (fun x registers => q.carry registers x.2) (Array.replicate q.registerCount none)

/-- **The sites a trail can go on to** in a scan that begins at the position `s`. The empty trail
goes on to the entries of the program, those of the lookbehinds before that of the main
expression. -/
def onward (V : Verdicts) (s : Nat) : Trail → List Site
  | [] => (Machine.seeds q).reverse.map fun pc => { pc, consumed := true, position := s }
  | x :: _ => q.branches V x.2

omit [CodeUnit α] in
@[simp] theorem size_carry (registers : Registers) (x : Site) :
    (q.carry registers x).size = registers.size := by
  rw [carry]
  split <;> simp

omit [CodeUnit α] in
@[simp] theorem size_registersAfter (w : Trail) : (q.registersAfter w).size = q.registerCount := by
  induction w with
  | nil => simp [registersAfter]
  | cons x w ih => exact (q.size_carry _ _).trans ih

end Query

/-! ## Walks, routes and their order -/

section Definitions

variable {α : Type} [CodeUnit α] (q : Query α) (V : Verdicts) (s : Nat)

/-- A trail that follows the program, in a scan that begins at the position `s`. -/
inductive Walk : Trail → Prop
  | nil : Walk []
  | cons {x : Nat × Site} {w : Trail} (h : Walk w) (hx : (q.onward V s w)[x.1]? = some x.2) :
    Walk (x :: w)

/-- A trail that passes no site twice. -/
def Trail.Simple (w : Trail) : Prop := (w.map Prod.snd).Nodup

/-- A trail that ends at an `accept`. -/
def Trail.Accepts (w : Trail) : Prop := ∃ x ∈ w.head?, q.instruction? x.2.pc = some .accept

/-- **A route** leads to an `accept` and passes no site twice. -/
structure Route (w : Trail) : Prop where
  walk : Walk q V s w
  simple : w.Simple
  accepts : w.Accepts q

/-- **One trail precedes another** if it takes the earlier branch where they part. -/
def Trail.Precedes (w w' : Trail) : Prop := ∃ c x y, x.1 < y.1 ∧ x :: c <:+ w ∧ y :: c <:+ w'

/-- The route that precedes every other one. -/
structure Route.IsFirst (w : Trail) : Prop where
  route : Route q V s w
  first : ∀ w', Route q V s w' → w' = w ∨ w.Precedes w'

end Definitions

/-! ## The order of trails -/

namespace Trail

variable {u u' v v' w : Trail} {x y : Nat × Site}

/-- Where trails have parted they never meet again. -/
theorem Precedes.mono (h : u.Precedes v) (hu : u <:+ u') (hv : v <:+ v') : u'.Precedes v' := by
  obtain ⟨c, x, y, hlt, hx, hy⟩ := h
  exact ⟨c, x, y, hlt, hx.trans hu, hy.trans hv⟩

theorem precedes_cons (h : x.1 < y.1) : Precedes (x :: w) (y :: w) :=
  ⟨w, x, y, h, List.suffix_rfl, List.suffix_rfl⟩

/-- A trail cannot part from its own continuation. -/
theorem Precedes.not_suffix (h : u.Precedes v) (hw : u <:+ w) : ¬ v <:+ w := by
  intro hv
  obtain ⟨c, x, y, hlt, hx, hy⟩ := h
  have hle := List.suffix_of_suffix_length_le (hx.trans hw) (hy.trans hv) (by simp)
  obtain ⟨rfl, -⟩ := List.cons.inj (hle.eq_of_length (by simp))
  exact absurd hlt (Nat.lt_irrefl _)

theorem Precedes.irrefl (h : w.Precedes w) : False :=
  h.not_suffix List.suffix_rfl List.suffix_rfl

theorem Precedes.trans (huv : u.Precedes v) (hvw : v.Precedes w) : u.Precedes w := by
  obtain ⟨c, a, b, hab, ha, hb⟩ := huv
  obtain ⟨d, b', e, hbe, hb', he⟩ := hvw
  rcases List.suffix_or_suffix_of_suffix hb hb' with h | h
  · rcases List.suffix_cons_iff.mp h with heq | h
    · obtain ⟨rfl, rfl⟩ := List.cons.inj heq
      exact ⟨c, a, e, Nat.lt_trans hab hbe, ha, he⟩
    · exact ⟨c, a, b, hab, ha, h.trans ((List.suffix_cons e d).trans he)⟩
  · rcases List.suffix_cons_iff.mp h with heq | h
    · obtain ⟨rfl, rfl⟩ := List.cons.inj heq
      exact ⟨d, a, e, Nat.lt_trans hab hbe, ha, he⟩
    · exact ⟨d, b', e, hbe, h.trans ((List.suffix_cons a c).trans ha), he⟩

/-- A trail that is not the whole of its continuation goes on. -/
theorem exists_cons_suffix (h : u <:+ w) (hne : u ≠ w) : ∃ x, x :: u <:+ w := by
  obtain ⟨l, rfl⟩ := h
  rcases List.eq_nil_or_concat l with rfl | ⟨l, x, rfl⟩
  · exact absurd rfl hne
  · exact ⟨x, l, by simp⟩

theorem Simple.of_suffix (h : w.Simple) (hu : u <:+ w) : u.Simple :=
  List.Nodup.sublist (hu.sublist.map _) h

theorem simple_cons : Simple (x :: w) ↔ (∀ z ∈ w, z.2 ≠ x.2) ∧ w.Simple := by
  rw [Simple, List.map_cons, List.nodup_cons, List.mem_map, not_exists]
  exact and_congr_left' ⟨fun h z hz heq => h z ⟨hz, heq⟩, fun h z hz => h z hz.1 hz.2⟩

theorem Simple.ne_of_mem {l : Trail} (h : Simple (l ++ x :: w)) (hy : y ∈ l) : y.2 ≠ x.2 := by
  rw [Simple, List.map_append, List.map_cons] at h
  exact (List.nodup_append.mp h).2.2 _ (List.mem_map_of_mem hy) _ List.mem_cons_self

end Trail

/-! ## Walks -/

section Walks

variable {α : Type} [CodeUnit α] {q : Query α} {V : Verdicts} {s : Nat} {u v w : Trail}
  {x y : Nat × Site}

namespace Walk

theorem tail (h : Walk q V s (x :: w)) : Walk q V s w := by
  cases h with
  | cons h hx => exact h

theorem mem_onward (h : Walk q V s (x :: w)) : (q.onward V s w)[x.1]? = some x.2 := by
  cases h with
  | cons h hx => exact hx

theorem of_suffix (h : Walk q V s w) (hu : u <:+ w) : Walk q V s u := by
  induction h with
  | nil =>
    obtain rfl := List.suffix_nil.mp hu
    exact .nil
  | cons h hx ih =>
    rcases List.suffix_cons_iff.mp hu with rfl | hu
    · exact .cons h hx
    · exact ih hu

/-- How a trail goes on depends on its last site alone. -/
theorem replace (h : Walk q V s (y :: x :: u)) {x' : Nat × Site} (hv : Walk q V s (x' :: v))
    (hsite : x'.2 = x.2) : Walk q V s (y :: x' :: v) := by
  refine .cons hv ?_
  rw [Query.onward, hsite]
  exact h.mem_onward

/-- **A branch is known by its number.** -/
theorem eq_of_branch_eq (hx : Walk q V s (x :: w)) (hy : Walk q V s (y :: w)) (h : x.1 = y.1) :
    x = y := by
  have hsite := hx.mem_onward
  rw [h, hy.mem_onward] at hsite
  exact Prod.ext h (Option.some.inj hsite).symm

/-- A site is left only by the branches of its instruction. -/
theorem mem_branches (h : Walk q V s (y :: x :: w)) : y.2 ∈ q.branches V x.2 :=
  List.mem_of_getElem? h.mem_onward

end Walk

/-! ## Sites of walks -/

namespace Query

/-- All sites of a program and an input. -/
def sites (q : Query α) : List Site :=
  (List.range q.program.size).flatMap fun pc =>
    [true, false].flatMap fun consumed =>
      (List.range (q.input.size + 1)).map fun position => { pc, consumed, position }

omit [CodeUnit α] in
theorem mem_sites {x : Site} :
    x ∈ q.sites ↔ x.pc < q.program.size ∧ x.position ≤ q.input.size := by
  simp only [sites, List.mem_flatMap, List.mem_range, List.mem_map, Nat.lt_succ_iff]
  constructor
  · rintro ⟨pc, hpc, consumed, -, position, hposition, rfl⟩
    exact ⟨hpc, hposition⟩
  · rintro ⟨hpc, hposition⟩
    exact ⟨x.pc, hpc, x.consumed, by cases x.consumed <;> simp, x.position, hposition, rfl⟩

theorem mem_sites_of_branch {x y : Site} (hx : x ∈ q.sites) (h : y ∈ q.branches V x) :
    y ∈ q.sites := by
  obtain ⟨i, hi, hpc, hposition⟩ := branch_cases h
  have hle := (mem_sites.mp hx).2
  refine mem_sites.mpr ⟨?_, ?_⟩
  · rcases hpc with ⟨hpc, hgoes⟩ | htarget | htarget
    · rw [hpc]
      exact q.program.next_lt hi hgoes
    · exact q.program.target_lt (.inl (hi.trans (congrArg some htarget)))
    · exact q.program.target_lt (.inr (hi.trans (congrArg some htarget)))
  · split at hposition <;> omega

end Query

namespace Walk

theorem mem_sites (h : Walk q V s w) (hs : s ≤ q.input.size) (hx : x ∈ w) : x.2 ∈ q.sites := by
  induction h generalizing x with
  | nil => simp at hx
  | @cons y w h hy ih =>
    rcases List.mem_cons.mp hx with rfl | hx
    · have hy := List.mem_of_getElem? hy
      cases w with
      | nil =>
        obtain ⟨pc, hpc, heq⟩ := List.mem_map.mp hy
        rw [← heq]
        exact Query.mem_sites.mpr ⟨Machine.lt_of_mem_seeds (List.mem_reverse.mp hpc), hs⟩
      | cons z w => exact Query.mem_sites_of_branch (ih List.mem_cons_self) hy
    · exact ih hx

/-- A walk never goes back in the input. -/
theorem position_le (h : Walk q V s (x :: w)) (hy : y ∈ w) : y.2.position ≤ x.2.position := by
  induction w generalizing x with
  | nil => simp at hy
  | cons z w ih =>
    have hz : z.2.position ≤ x.2.position := Query.position_branch_le h.mem_branches
    rcases List.mem_cons.mp hy with rfl | hy
    · exact hz
    · exact Nat.le_trans (ih h.tail hy) hz

/-- A walk begins where the scan does. -/
theorem start_le (h : Walk q V s w) (hx : x ∈ w) : s ≤ x.2.position := by
  induction h generalizing x with
  | nil => simp at hx
  | @cons y w h hy ih =>
    rcases List.mem_cons.mp hx with rfl | hx
    · have hy := List.mem_of_getElem? hy
      cases w with
      | nil =>
        obtain ⟨pc, -, heq⟩ := List.mem_map.mp hy
        rw [← heq]
      | cons z w => exact Nat.le_trans (ih List.mem_cons_self) (Query.position_branch_le hy)
    · exact ih hx

theorem position_le_ahead {l : Trail} (h : Walk q V s (l ++ x :: w)) (hy : y ∈ l ++ [x]) :
    x.2.position ≤ y.2.position := by
  rcases List.mem_append.mp hy with hy | hy
  · obtain ⟨l₁, l₂, rfl⟩ := List.append_of_mem hy
    rw [List.append_assoc] at h
    exact (h.of_suffix (List.suffix_append l₁ _)).position_le (by simp)
  · rw [List.mem_singleton.mp hy]

/-- **A walk that passes no site twice is not longer than there are sites.** -/
theorem length_le (h : Walk q V s w) (hs : s ≤ q.input.size) (hw : w.Simple) :
    w.length ≤ q.sites.length := by
  rw [← List.length_map (f := Prod.snd)]
  refine (hw.subperm fun site hsite => ?_).length_le
  obtain ⟨x, hx, rfl⟩ := List.mem_map.mp hsite
  exact h.mem_sites hs hx

end Walk

/-! ## The first route -/

omit [CodeUnit α] in
/-- A trail that accepts ends at some site. -/
theorem Trail.Accepts.exists_cons (h : w.Accepts q) :
    ∃ x v, w = x :: v ∧ q.instruction? x.2.pc = some .accept := by
  obtain ⟨x, hx, haccept⟩ := h
  obtain ⟨v, rfl⟩ := List.head?_eq_some_iff.mp hx
  exact ⟨x, v, rfl, haccept⟩

namespace Route

/-- A route ends where it accepts. -/
theorem eq_of_suffix (hu : Route q V s u) (hv : Route q V s v) (h : u <:+ v) : u = v := by
  by_contra hne
  obtain ⟨x, hx⟩ := Trail.exists_cons_suffix h hne
  obtain ⟨y, u, rfl, haccept⟩ := hu.accepts.exists_cons
  have hgoes := (hv.walk.of_suffix hx).mem_branches
  simp [Query.branches, haccept] at hgoes

/-- **Among the routes that begin in one way there is a first one**, if there is one at all: it
takes the earliest branch on which a route can be completed. -/
theorem exists_first_from (hs : s ≤ q.input.size) (w : Trail)
    (h : ∃ u, Route q V s u ∧ w <:+ u) :
    ∃ u, Route q V s u ∧ w <:+ u ∧ ∀ v, Route q V s v → w <:+ v → v = u ∨ u.Precedes v := by
  classical
  induction hn : q.sites.length - w.length using Nat.strongRecOn generalizing w with
  | _ n ih =>
    by_cases hw : Route q V s w
    · exact ⟨w, hw, List.suffix_rfl, fun v hv hwv => .inl (hw.eq_of_suffix hv hwv).symm⟩
    · have honward : ∃ k x, x.1 = k ∧ ∃ u, Route q V s u ∧ x :: w <:+ u := by
        obtain ⟨u, hu, hwu⟩ := h
        obtain ⟨x, hx⟩ := Trail.exists_cons_suffix hwu fun heq => hw (heq ▸ hu)
        exact ⟨x.1, x, rfl, u, hu, hx⟩
      -- The earliest branch that some route takes.
      obtain ⟨x, hxk, u, hu, hxu⟩ := Nat.find_spec honward
      have hlength := (hu.walk.of_suffix hxu).length_le hs (hu.simple.of_suffix hxu)
      rw [List.length_cons] at hlength
      obtain ⟨u, hu, hxu, hfirst⟩ :=
        ih _ (by rw [List.length_cons]; omega) (x :: w) ⟨u, hu, hxu⟩ rfl
      refine ⟨u, hu, (List.suffix_cons x w).trans hxu, fun v hv hwv => ?_⟩
      obtain ⟨y, hy⟩ := Trail.exists_cons_suffix hwv fun heq => hw (heq ▸ hv)
      have hle := Nat.find_min' honward ⟨y, rfl, v, hv, hy⟩
      rw [← hxk] at hle
      rcases Nat.lt_or_eq_of_le hle with hlt | heq
      · exact .inr ((Trail.precedes_cons hlt).mono hxu hy)
      · obtain rfl := (hu.walk.of_suffix hxu).eq_of_branch_eq (hv.walk.of_suffix hy) heq
        exact hfirst v hv hy

/-- **If there is a route, there is a first one.** -/
theorem exists_isFirst (hs : s ≤ q.input.size) (h : ∃ u, Route q V s u) :
    ∃ u, IsFirst q V s u := by
  obtain ⟨u, hu⟩ := h
  obtain ⟨u, hu, -, hfirst⟩ := exists_first_from hs [] ⟨u, hu, List.nil_suffix⟩
  exact ⟨u, hu, fun v hv => hfirst v hv List.nil_suffix⟩

/-- **Another way to a site of a route can be completed along the route** — with a shortcut wherever
the rest of the route comes back to the other way. What is kept of the other way ends at a site
where the route was not before. -/
theorem exists_completion {l : Trail} (hu : Route q V s (l ++ x :: u))
    (hv : Walk q V s (y :: v)) (hsimple : Trail.Simple (y :: v)) (hsite : y.2 = x.2) :
    ∃ z v' r, z :: v' <:+ y :: v ∧ (∀ z' ∈ u, z'.2 ≠ z.2) ∧ z :: v' <:+ r ∧ Route q V s r := by
  induction l using List.reverseRecOn generalizing x u y v with
  | nil =>
    have hux := Trail.simple_cons.mp hu.simple
    refine ⟨y, v, y :: v, List.suffix_rfl, by rw [hsite]; exact hux.1, List.suffix_rfl, hv,
      hsimple, y, rfl, ?_⟩
    obtain ⟨x', hx', haccept⟩ := hu.accepts
    obtain rfl : x' = x := by simpa using hx'.symm
    rw [hsite]
    exact haccept
  | append_singleton l x' ih =>
    rw [List.append_assoc, List.singleton_append] at hu
    have hux : x :: u <:+ l ++ x' :: x :: u := ⟨l ++ [x'], by simp⟩
    have hnew := (Trail.simple_cons.mp (hu.simple.of_suffix hux)).1
    have hstep := (hu.walk.of_suffix (List.suffix_append l _)).replace hv hsite
    by_cases hback : ∀ z ∈ y :: v, z.2 ≠ x'.2
    · obtain ⟨z, v', r, hz, hzu, hzr, hr⟩ :=
        ih hu hstep (Trail.simple_cons.mpr ⟨hback, hsimple⟩) rfl
      rcases List.suffix_cons_iff.mp hz with heq | hz
      · refine ⟨y, v, r, List.suffix_rfl, by rw [hsite]; exact hnew, ?_, hr⟩
        rw [heq] at hzr
        exact (List.suffix_cons _ _).trans hzr
      · exact ⟨z, v', r, hz, fun z' hz' => hzu z' (List.mem_cons_of_mem _ hz'), hzr, hr⟩
    · push Not at hback
      obtain ⟨z, hz, hzx⟩ := hback
      obtain ⟨l', v', hsplit⟩ := List.append_of_mem hz
      have hsuffix : z :: v' <:+ y :: v := ⟨l', hsplit.symm⟩
      obtain ⟨z', v'', r, hz', hzu, hzr, hr⟩ :=
        ih hu (hv.of_suffix hsuffix) (hsimple.of_suffix hsuffix) hzx
      exact ⟨z', v'', r, hz'.trans hsuffix, fun z hz => hzu z (List.mem_cons_of_mem _ hz), hzr, hr⟩

/-- There is but one first route. -/
theorem IsFirst.unique {r r' : Trail} (h : IsFirst q V s r) (h' : IsFirst q V s r') : r' = r := by
  refine (h.first r' h'.route).resolve_right fun hprecedes => ?_
  rcases h'.first r h.route with rfl | hback
  · exact hprecedes.irrefl
  · exact (hprecedes.trans hback).irrefl

/-- **No other way to a site of the first route precedes it.** -/
theorem IsFirst.not_precedes {r : Trail} (hr : IsFirst q V s r) (hu : x :: u <:+ r)
    (hv : Walk q V s (y :: v)) (hsimple : Trail.Simple (y :: v)) (hsite : y.2 = x.2) :
    ¬ Trail.Precedes (y :: v) (x :: u) := by
  rintro ⟨c, a, b, hlt, ha, hb⟩
  obtain ⟨l, rfl⟩ := hu
  obtain ⟨z, v', r', hz, hzu, hzr, hr'⟩ := exists_completion hr.route hv hsimple hsite
  rcases Nat.lt_or_ge c.length (z :: v').length with hlong | hshort
  · -- The two part before `z`: the completion precedes the first route.
    have haz : a :: c <:+ z :: v' :=
      List.suffix_of_suffix_length_le ha hz (by rw [List.length_cons]; omega)
    have hprecedes : Trail.Precedes r' (l ++ x :: u) :=
      ⟨c, a, b, hlt, haz.trans hzr, hb.trans (List.suffix_append _ _)⟩
    rcases hr.first r' hr' with rfl | hback
    · exact hprecedes.irrefl
    · exact (hprecedes.trans hback).irrefl
  · -- They part after `z`, which is then a site the first route was at before.
    have hzc : z :: v' <:+ c := by
      refine List.suffix_of_suffix_length_le hz ((List.suffix_cons a c).trans ha) hshort
    have hcu : c <:+ u := by
      rcases List.suffix_cons_iff.mp hb with heq | hb
      · obtain ⟨-, rfl⟩ := List.cons.inj heq
        exact List.suffix_rfl
      · exact (List.suffix_cons b c).trans hb
    exact hzu z ((hzc.trans hcu).subset List.mem_cons_self) rfl

/-- What precedes a part of the first route stays clear of the way ahead of that part. -/
theorem IsFirst.ne_of_precedes {l : Trail} {z : Nat × Site} (hr : IsFirst q V s (l ++ x :: u))
    (hv : Walk q V s (y :: v)) (hsimple : Trail.Simple (y :: v))
    (h : Trail.Precedes (y :: v) (x :: u)) (hz : z ∈ l ++ [x]) : z.2 ≠ y.2 := by
  obtain ⟨l₁, l₂, hsplit⟩ := List.append_of_mem hz
  have hr' : l ++ x :: u = l₁ ++ z :: (l₂ ++ u) := by
    rw [← List.singleton_append (x := x), ← List.append_assoc, hsplit]
    simp
  have hzu : z :: (l₂ ++ u) <:+ l ++ x :: u := ⟨l₁, hr'.symm⟩
  have hxz : x :: u <:+ z :: (l₂ ++ u) :=
    List.suffix_of_suffix_length_le (List.suffix_append _ _) hzu (by simp)
  exact fun heq => hr.not_precedes hzu hv hsimple heq.symm (h.mono List.suffix_rfl hxz)

end Route

end Walks

end RegexMachine
