import Blockchain.Chain.Primitives

/-!
# The dispatcher's join

`dispatcher::parallel` runs a job on every element of a collection concurrently and joins their
completions: the handler fires once, with the first error, or with `success` once every job has
succeeded. `synchronize` is the same join over a count of jobs. Both come from libbitcoin, which
the sources call but do not define; they are modelled from the spec's description of them.

Over jobs that each complete once, the join is the join of their codes (`parallel_singleton`);
over jobs that each succeed or fail with one code, it is `success` exactly when all succeed
(`parallel_verdict`).
-/

namespace Blockchain

/-- Modelled from the spec: the join of `dispatcher::parallel`, from libbitcoin, which the sources
call but do not define. Every job completes; the handler fires once, with the first error, or with
`success` when every job succeeded. -/
def join (codes : List Code) : Code := (codes.find? (· != .success)).getD .success

/-- Modelled from the spec: `synchronize(handler, count, name)`, the calls of the handler once the
jobs' completions `codes` have arrived. -/
def synchronize (codes : List Code) : List Code := [join codes]

/-- Modelled from the spec: `dispatcher::parallel`, the calls of its handler after running `job` on
every element. -/
def parallel {α : Type} (items : List α) (job : α → List Code) : List Code :=
  synchronize (items.flatMap job)

/-- A join over jobs that each succeed or fail with one code `e` is `success` when all succeed
and `e` otherwise. -/
theorem join_map_verdict {α : Type} (l : List α) (p : α → Bool) {e : Code} (he : e ≠ .success) :
    join (l.map fun x => if p x then .success else e) = if l.all p then .success else e := by
  induction l with
  | nil => rfl
  | cons a l ih =>
    by_cases hp : p a
    · simpa [join, hp] using ih
    · simp [join, hp, he]

/-- Jobs that all succeed join to `success`. -/
theorem synchronize_of_success {codes : List Code} (h : ∀ c ∈ codes, c = .success) :
    synchronize codes = [.success] := by
  have : codes.find? (· != .success) = none := List.find?_eq_none.2 fun c hc => by simp [h c hc]
  simp [synchronize, join, this]

/-- Jobs that each complete once join to the join of their codes. -/
theorem parallel_singleton {α : Type} (items : List α) (f : α → Code) :
    parallel items (fun x => [f x]) = [join (items.map f)] := by
  have : items.flatMap (fun x => [f x]) = items.map f := by
    induction items <;> simp_all [List.flatMap]
  rw [parallel, synchronize, this]

/-- Jobs that each succeed or fail with one code `e` join to `success` when all succeed and to `e`
otherwise. -/
theorem parallel_verdict {α : Type} (items : List α) (p : α → Bool) {e : Code} (he : e ≠ .success)
    {job : α → List Code} (hjob : ∀ x, job x = [if p x then .success else e]) :
    parallel items job = [if items.all p then .success else e] := by
  rw [show job = fun x => [if p x then .success else e] from funext hjob, parallel_singleton,
    join_map_verdict _ _ he]

end Blockchain
