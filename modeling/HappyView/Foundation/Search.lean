import Mathlib.Data.List.Basic
import Mathlib.Data.List.Nodup
import Mathlib.Data.List.Perm.Subperm

/-!
# Depth-limited depth-first search

`search` visits what it can reach, each vertex once, and goes no further from a vertex it came to
at the last level. It is not the same as visiting everything near enough: a vertex first reached
by a long way round is not gone on from, although a short way leads to it as well.
-/

namespace HappyView.Foundation.Search

variable {α : Type*}

/-- Steps from `a` to `b`, any vertex any number of times. -/
def Walk (R : α → α → Prop) : Nat → α → α → Prop
  | 0, a, b => a = b
  | n + 1, a, b => ∃ c, Walk R n a c ∧ R c b

/-- A way from `root` on which no vertex comes twice, the last vertex first. -/
inductive Trail (R : α → α → Prop) (root : α) : List α → α → Prop where
  | start : Trail R root [root] root
  | step {path : List α} {a b : α} (trail : Trail R root path a) (link : R a b)
      (new : b ∉ path) : Trail R root (b :: path) b

theorem Trail.walk {R : α → α → Prop} {root : α} {path : List α} {a : α}
    (trail : Trail R root path a) : Walk R (path.length - 1) root a ∧ 0 < path.length := by
  induction trail with
  | start => exact ⟨rfl, by simp⟩
  | @step path a b trail link new ih =>
    obtain ⟨walk, pos⟩ := ih
    refine ⟨?_, by simp⟩
    have : (b :: path).length - 1 = (path.length - 1) + 1 := by
      rw [List.length_cons]
      omega
    rw [this]
    exact ⟨a, walk, link⟩

def Near (R : α → α → Prop) (limit : Nat) (root a : α) : Prop := ∃ n < limit, Walk R n root a

/-- Vertices near the root that a search may leave out: whatever leads to one of them from
outside is a vertex that some way without repetition comes to at the last level. -/
structure Missed (R : α → α → Prop) (limit : Nat) (root : α) (M : α → Prop) : Prop where
  near : ∀ b, M b → Near R limit root b
  start : ¬ M root
  cut : ∀ a b, Near R limit root a → ¬ M a → R a b → M b →
    ∃ path, Trail R root path a ∧ path.length = limit ∧ ∀ c ∈ path, ¬ M c

theorem Trail.within {R : α → α → Prop} {root : α} {vertices path : List α} {a : α}
    (trail : Trail R root path a) (start : root ∈ vertices)
    (closed : ∀ a b, R a b → b ∈ vertices) : path.length ≤ vertices.length := by
  have inside : path.Nodup ∧ path ⊆ vertices := by
    induction trail with
    | start => exact ⟨List.nodup_singleton root, by simpa using start⟩
    | step trail link new ih =>
      exact ⟨List.nodup_cons.mpr ⟨new, ih.1⟩, List.cons_subset.mpr ⟨closed _ _ link, ih.2⟩⟩
  exact (List.subperm_of_subset inside.1 inside.2).length_le

theorem Missed.empty {R : α → α → Prop} {limit : Nat} {root : α} {M : α → Prop}
    (missed : Missed R limit root M)
    {vertices : List α} (start : root ∈ vertices) (closed : ∀ a b, R a b → b ∈ vertices)
    (few : vertices.length < limit) (b : α) : ¬ M b := by
  have reached (n : Nat) (short : n < limit) (b : α) (walk : Walk R n root b) : ¬ M b := by
    induction n generalizing b with
    | zero =>
      cases walk
      exact missed.start
    | succ n ih =>
      intro miss
      obtain ⟨a, walk, link⟩ := walk
      obtain ⟨path, trail, length, -⟩ :=
        missed.cut a b ⟨n, by omega, walk⟩ (ih (by omega) a walk) link miss
      have := trail.within start closed
      omega
  intro miss
  obtain ⟨n, short, walk⟩ := missed.near b miss
  exact reached n short b walk miss

/-! ## The search -/

variable (next : α → List α)

def Step (a b : α) : Prop := b ∈ next a

/-- A vertex that the search went on from, or came to at the last level. -/
def Settled (limit : Nat) (root : α) (visited : List α) (a : α) : Prop :=
  (∀ b ∈ next a, b ∈ visited) ∨
    ∃ path, Trail (Step next) root path a ∧ path.length = limit ∧ path ⊆ visited

structure Explores (limit : Nat) (root : α) (before after : List α) : Prop where
  subset : before ⊆ after
  settled : ∀ a ∈ after, a ∉ before → Settled next limit root after a
  near : ∀ a ∈ after, a ∉ before → ∃ path, Trail (Step next) root path a ∧ path.length ≤ limit

variable {next} {limit : Nat} {root : α}

theorem Settled.mono {visited more : List α} {a : α} (h : Settled next limit root visited a)
    (sub : visited ⊆ more) : Settled next limit root more a := by
  rcases h with all | ⟨path, trail, length, within⟩
  · exact .inl fun b hb => sub (all b hb)
  · exact .inr ⟨path, trail, length, List.Subset.trans within sub⟩

namespace Explores

theorem refl (visited : List α) : Explores next limit root visited visited :=
  ⟨fun _ h => h, fun _ mem new => absurd mem new, fun _ mem new => absurd mem new⟩

theorem trans {A B C : List α} (ab : Explores next limit root A B)
    (bc : Explores next limit root B C) : Explores next limit root A C where
  subset := List.Subset.trans ab.subset bc.subset
  settled := by
    intro a mem new
    by_cases first : a ∈ B
    · exact (ab.settled a first new).mono bc.subset
    · exact bc.settled a mem first
  near := by
    intro a mem new
    by_cases first : a ∈ B
    · exact ab.near a first new
    · exact bc.near a mem first

theorem foldl {f : List α → α → List α} {P : Prop} {base : List α} {rest : List α}
    (each : ∀ b ∈ rest, ∀ seen, base ⊆ seen →
      Explores next limit root seen (f seen b) ∧ (P → b ∈ f seen b))
    {seen : List α} (kept : base ⊆ seen) :
    Explores next limit root seen (rest.foldl f seen) ∧
      (P → ∀ b ∈ rest, b ∈ rest.foldl f seen) := by
  induction rest generalizing seen with
  | nil => exact ⟨.refl seen, by simp⟩
  | cons b rest ih =>
    obtain ⟨first, here⟩ := each b (by simp) seen kept
    obtain ⟨others, there⟩ := ih (fun c mem => each c (by simp [mem]))
      (List.Subset.trans kept first.subset)
    refine ⟨first.trans others, fun holds c mem => ?_⟩
    rcases List.mem_cons.mp mem with rfl | mem
    · exact others.subset (here holds)
    · exact there holds c mem

end Explores

variable [DecidableEq α]

variable (next) in
def search : Nat → α → List α → List α
  | 0, _, visited => visited
  | fuel + 1, a, visited =>
    if a ∈ visited then visited
    else (next a).foldl (fun visited b => search fuel b visited) (a :: visited)

theorem search_explores {fuel : Nat} {a : α} {visited path : List α}
    (levels : path.length + fuel = limit) (stack : path ⊆ visited)
    (enter : a ∉ visited → Trail (Step next) root (a :: path) a) :
    Explores next limit root visited (search next fuel a visited) ∧
      (fuel ≠ 0 → a ∈ search next fuel a visited) := by
  induction fuel generalizing a visited path with
  | zero => exact ⟨.refl _, by simp⟩
  | succ fuel ih =>
    rw [search]
    split
    · rename_i known
      exact ⟨.refl _, fun _ => known⟩
    · rename_i new
      have trail := enter new
      have length : (a :: path).length + fuel = limit := by
        rw [List.length_cons]
        omega
      obtain ⟨below, children⟩ := Explores.foldl (P := fuel ≠ 0)
        (fun b mem seen kept => by
          have onStack : a :: path ⊆ seen :=
            List.Subset.trans (List.cons_subset_cons a stack) kept
          exact ih length onStack fun fresh => trail.step mem fun old => fresh (onStack old))
        (List.Subset.refl (a :: visited))
      have self := below.subset (List.mem_cons_self (a := a) (l := visited))
      refine ⟨⟨fun b mem => below.subset (by simp [mem]), fun b mem fresh => ?_,
        fun b mem fresh => ?_⟩, fun _ => self⟩
      · by_cases same : b = a
        · subst same
          by_cases last : fuel = 0
          · refine .inr ⟨b :: path, trail, by omega, ?_⟩
            exact List.Subset.trans (List.cons_subset_cons b stack) below.subset
          · exact .inl (children last)
        · exact below.settled b mem (by simp [same, fresh])
      · by_cases same : b = a
        · subst same
          exact ⟨b :: path, trail, by omega⟩
        · exact below.near b mem (by simp [same, fresh])

theorem search_root (next : α → List α) (limit : Nat) (root : α) :
    Explores next limit root [] (search next limit root []) ∧
      (limit ≠ 0 → root ∈ search next limit root []) :=
  search_explores (by simp) (List.Subset.refl []) fun _ => .start

theorem near_of_mem_search {a : α} (mem : a ∈ search next limit root []) :
    Near (Step next) limit root a := by
  obtain ⟨path, trail, short⟩ := (search_root next limit root).1.near a mem (by simp)
  obtain ⟨walk, pos⟩ := trail.walk
  exact ⟨_, by omega, walk⟩

/-- What is near and not visited lies behind vertices first reached at the last level. -/
theorem search_missed (pos : limit ≠ 0) : Missed (Step next) limit root fun b =>
    Near (Step next) limit root b ∧ b ∉ search next limit root [] where
  near _ missed := missed.1
  start missed := missed.2 ((search_root next limit root).2 pos)
  cut := by
    intro a b near found link missed
    have mem : a ∈ search next limit root [] := by
      by_contra absent
      exact found ⟨near, absent⟩
    rcases (search_root next limit root).1.settled a mem (by simp) with all | deep
    · exact absurd (all b link) missed.2
    · obtain ⟨path, trail, length, within⟩ := deep
      exact ⟨path, trail, length, fun c on missed => missed.2 (within on)⟩

end HappyView.Foundation.Search
