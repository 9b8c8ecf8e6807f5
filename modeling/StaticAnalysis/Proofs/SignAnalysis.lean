import Mathlib.Data.List.Chain
import StaticAnalysis.Proofs.CompositeLattice
import StaticAnalysis.Proofs.SignArithmetic
import StaticAnalysis.Proofs.Stability
import StaticAnalysis.Transfer

/-!
Sign analysis of programs. A program is a graph with a statement at every node; executing the
statements along a path takes a store of integers to another one. The analysis solves equations
over maps from variables to signs, and its solution covers the stores of all executions. That holds
of every analysis whose transfer functions follow the execution of single statements: what a join
covers, and what a path has collected, is a matter of the equations alone.
-/

namespace StaticAnalysis

/-- The keys of the domain that a path goes through follow each other along the flow. -/
def Flow.IsPath {κ : Type} (F : Flow κ) (path : List κ) : Prop :=
  (∀ k ∈ path, k ∈ F.domain) ∧ path.IsChain fun j k => k ∈ F.outgoing j

theorem Flow.isPath_concat {κ : Type} {F : Flow κ} {path : List κ} {k : κ}
    (h : F.IsPath (path ++ [k])) :
    F.IsPath path ∧ k ∈ F.domain ∧ ∀ j ∈ path.getLast?, k ∈ F.outgoing j := by
  obtain ⟨hmem, hchain⟩ := h
  obtain ⟨hpath, -, hlast⟩ := List.isChain_append.mp hchain
  refine ⟨⟨fun j hj => hmem j ?_, hpath⟩, hmem k ?_, fun j hj => hlast j hj k rfl⟩
  · exact List.mem_append_left _ hj
  · exact List.mem_append_right _ (List.mem_singleton_self k)

/-- A state that is reached by what happens at the keys of a path, one after the other. -/
inductive Runs {κ σ : Type} (exec : κ → σ → σ → Prop) (start : σ) : List κ → σ → Prop where
  | nil : Runs exec start [] start
  | concat {path : List κ} {k : κ} {s t : σ} (h : Runs exec start path s) (hk : exec k s t) :
      Runs exec start (path ++ [k]) t

namespace Equations

variable {κ α σ : Type} {E : Equations κ α} {exec : κ → σ → σ → Prop} {start : σ}
  {Covers : α → σ → Prop} {Member : α → Prop}

/-- The elements of the lattice cover states: the bottom covers those from which executions start,
larger elements cover more, and a transfer function keeps up with what happens at its key. -/
structure Abstraction (E : Equations κ α) (exec : κ → σ → σ → Prop) (start : σ)
    (Covers : α → σ → Prop) : Prop where
  bottom : Covers E.lattice.bottom start
  mono : ∀ {x y : α} {s : σ}, Covers x s → E.lattice.Below x y → Covers y s
  transfer : ∀ {k : κ} {x y : α} {s t : σ}, Covers x s → exec k s t → E.transfer k x = .ok y →
    Covers y t

variable [Ord κ] [Std.TransOrd κ]

/-- A post-solution covers what has been reached at the end of a path. Before the first key that is
the start, which the bottom covers. -/
theorem Abstraction.covers_run (h : E.Abstraction exec start Covers) (hL : E.lattice.Lawful Member)
    (hF : E.flow.Mutual) {m : TotalMap κ α} (hm : m.All Member)
    (hpost : ∀ k ∈ E.flow.domain, E.Holds E.lattice.Below k m) {path : List κ} {s : σ}
    (hrun : Runs exec start path s) (hpath : E.flow.IsPath path) :
    Covers (path.getLast?.elim E.lattice.bottom m.get) s := by
  induction hrun with
  | nil => exact h.bottom
  | @concat path k s t _ hk ih =>
    obtain ⟨hpath, hdomain, hlast⟩ := Flow.isPath_concat hpath
    obtain ⟨y, hy, hyk⟩ := hpost k hdomain
    obtain ⟨z, hz, hzm, hup, -⟩ := join_spec hL hm k
    have hjoin : Covers z s := by
      refine h.mono (ih hpath) ?_
      cases hj : path.getLast? with
      | none => exact hL.bottom_below hzm
      | some j => exact hup j ((hF j k).mpr (hlast j hj))
    have htransfer : E.transfer k z = .ok y := by
      rw [evaluate, hz] at hy
      exact hy
    rw [List.getLast?_concat]
    exact h.mono (h.transfer hjoin hk htransfer) hyk

variable [Std.LawfulEqOrd κ] [DecidableEq κ] [DecidableEq α]

/-- Solving without widening and narrowing leaves every key of the domain with its right-hand
side. -/
theorem solve_stable (hF : E.flow.Coherent) {budget : Nat} {a b : Iteration κ α}
    (h : E.solve {} budget a = .finished b) : E.StableOff [] b.values := by
  obtain ⟨fresh, c, -, hrun, hbc⟩ := solve_eq_finished rfl h
  rw [hbc]
  exact (run_never_stable hF (fun _ => True) (fun _ _ _ _ _ _ _ => trivial) (fun _ hk => hk)
    trivial hrun).2

end Equations

/-- What a program does at a node: a variable gets the value of an expression, or nothing happens. -/
inductive Statement (ι : Type) where
  | assign (target : ι) (e : SignExpr ι)
  | skip

/-- A graph with a statement at every node. -/
structure Program (κ ι : Type) [DecidableEq κ] where
  graph : Digraph κ
  built : graph.Built
  statement : κ → Statement ι

namespace Statement

variable {ι : Type}

/-- Executing a statement takes one store to another. There is no execution of an assignment whose
expression has no value. -/
inductive Executes [DecidableEq ι] : Statement ι → (ι → Option Int) → (ι → Option Int) → Prop where
  | assign {target : ι} {e : SignExpr ι} {store : ι → Option Int} {n : Int}
      (h : e.HasValue store n) :
      Executes (.assign target e) store (Function.update store target (some n))
  | skip {store : ι → Option Int} : Executes .skip store store

variable [Ord ι] [Std.TransOrd ι]

/-- The effect of a statement on the signs of the variables. -/
def effect {κ : Type} : Statement ι → Transfer κ (TotalMap ι (Flat Sign))
  | .assign target e => Transfer.assign target e
  | .skip => Transfer.identity

/-- The effect of a statement covers its execution. -/
theorem Executes.covers_effect [Std.LawfulEqOrd ι] [DecidableEq ι] {κ : Type} {k : κ}
    {c : Statement ι} {x y : TotalMap ι (Flat Sign)} {store store' : ι → Option Int}
    (hx : SignExpr.CoversStore x.get store) (h : c.Executes store store')
    (hy : c.effect k x = .ok y) : SignExpr.CoversStore y.get store' := by
  cases h with
  | skip =>
    cases hy
    exact hx
  | @assign target e store n hvalue =>
    obtain ⟨s, hs, hsn⟩ := hvalue.covers_eval hx
    have hset : x.set target s = y := by
      simpa [effect, Transfer.assign, SignExpr.assign, hs] using hy
    intro name v hv
    rw [← hset]
    by_cases hname : target = name
    · subst hname
      rw [Function.update_self] at hv
      cases hv
      simpa using hsn
    · rw [Function.update_of_ne (Ne.symm hname)] at hv
      rw [TotalMap.get_set_of_ne _ hname]
      exact hx name v hv

end Statement

namespace Program

variable {κ ι : Type} [DecidableEq κ] [DecidableEq ι]

/-- The stores after a path, from the one in which no variable has a value. -/
def RunsTo (p : Program κ ι) (path : List κ) (store : ι → Option Int) : Prop :=
  Runs (fun k => (p.statement k).Executes) (fun _ => none) path store

variable [Ord ι] [Std.TransOrd ι] [Std.LawfulEqOrd ι]

/-- The equations of the sign analysis: a sign for every variable at every node. -/
def analysis (p : Program κ ι) : Equations κ (TotalMap ι (Flat Sign)) where
  lattice := Sign.lattice.totalMap
  flow := p.graph.flow
  transfer k := (p.statement k).effect k

theorem abstraction_analysis (p : Program κ ι) :
    p.analysis.Abstraction (fun k => (p.statement k).Executes) (fun _ => none)
      fun env store => SignExpr.CoversStore env.get store where
  bottom _ _ h := by cases h
  mono hx hxy name n hn := (hx name n hn).mono ((Lattice.below_totalMap_iff.mp hxy).2 name)
  transfer hx h hy := h.covers_effect hx hy

variable [Ord κ] [Std.TransOrd κ] [Std.LawfulEqOrd κ]

/-- Sign analysis is sound. When it ends, then after every execution along a path of the program
the value of a variable has a sign that the solution gives the variable at the last node. -/
theorem analysis_covers_run (p : Program κ ι) {budget : Nat}
    {a b : Iteration κ (TotalMap ι (Flat Sign))} (hb : p.analysis.solve {} budget a = .finished b)
    {path : List κ} {k : κ} {store : ι → Option Int} (hpath : p.graph.flow.IsPath (path ++ [k]))
    (hrun : p.RunsTo (path ++ [k]) store) {x : ι} {n : Int} (hx : store x = some n) :
    ((b.values.get k).get x).Covers n := by
  have hL : p.analysis.lattice.Lawful (TotalMap.All fun _ => True) :=
    (Lattice.totalMap_ordered Flat.lattice_ordered).lawful
  have hm : b.values.All (TotalMap.All fun _ => True) := by
    simp [TotalMap.All]
  have hpost : ∀ k ∈ p.analysis.flow.domain, p.analysis.Holds p.analysis.lattice.Below k b.values :=
    fun k hk => ⟨_, Equations.solve_stable p.built.coherent hb k hk (by simp), hL.below_refl (hm.2 k)⟩
  have hcovers := p.abstraction_analysis.covers_run hL p.graph.mutual_flow hm hpost hrun hpath
  rw [List.getLast?_concat] at hcovers
  exact hcovers x n hx

/-- An example: a loop at node 1 that counts variable 0 up from five, and what follows it. -/
def counting : Program Nat Nat where
  graph := Digraph.ofArcs [(0, 1), (1, 2), (2, 1), (1, 3), (3, 4), (4, 5)]
  built := Digraph.built_ofArcs _
  statement
    | 0 => .assign 0 (.const 5)
    | 2 => .assign 0 (.binary .plus (.var 0) (.const 1))
    | 3 => .assign 1 (.binary .times (.var 0) (.const (-2)))
    | 4 => .assign 2 (.binary .gt (.var 1) (.const 0))
    | 5 => .assign 3 (.binary .plus (.var 0) (.var 1))
    | _ => .skip

/-- The store after the loop has been executed twice. -/
def countingStore : Nat → Option Int
  | 0 => some 7
  | 1 => some (-14)
  | 2 => some 0
  | 3 => some (-7)
  | _ => none

theorem counting_runsTo : counting.RunsTo [0, 1, 2, 1, 2, 1, 3, 4, 5] countingStore := by
  have h0 : counting.RunsTo [] _ := .nil
  have h1 : counting.RunsTo [0] _ := h0.concat (.assign (.const 5))
  have h2 : counting.RunsTo [0, 1] _ := h1.concat .skip
  have h3 : counting.RunsTo [0, 1, 2] _ := h2.concat (.assign (.binary (.var rfl) (.const 1) rfl))
  have h4 : counting.RunsTo [0, 1, 2, 1] _ := h3.concat .skip
  have h5 : counting.RunsTo [0, 1, 2, 1, 2] _ :=
    h4.concat (.assign (.binary (.var rfl) (.const 1) rfl))
  have h6 : counting.RunsTo [0, 1, 2, 1, 2, 1] _ := h5.concat .skip
  have h7 : counting.RunsTo [0, 1, 2, 1, 2, 1, 3] _ :=
    h6.concat (.assign (.binary (.var rfl) (.const (-2)) rfl))
  have h8 : counting.RunsTo [0, 1, 2, 1, 2, 1, 3, 4] _ :=
    h7.concat (.assign (.binary (.var rfl) (.const 0) rfl))
  have h9 : counting.RunsTo [0, 1, 2, 1, 2, 1, 3, 4, 5] _ :=
    h8.concat (.assign (.binary (.var rfl) (.var rfl) rfl))
  convert h9 using 1
  funext x
  match x with
  | 0 | 1 | 2 | 3 => rfl
  | x + 4 => rfl

/-- The signs after the loop: positive, negative and zero, and of the sum nothing is known. -/
theorem analysis_counting_covers_run :
    counting.graph.flow.IsPath ([0, 1, 2, 1, 2, 1, 3, 4] ++ [5]) ∧
      counting.RunsTo ([0, 1, 2, 1, 2, 1, 3, 4] ++ [5]) countingStore ∧
      ∃ b, counting.analysis.solve {} 20 (.start counting.analysis) = .finished b ∧
        [0, 1, 2, 3].map ((Iteration.values b).get 5).get =
          [.simple .pos, .simple .neg, .simple .zero, .top] ∧
        ∀ x n, countingStore x = some n → (((Iteration.values b).get 5).get x).Covers n := by
  have hpath : counting.graph.flow.IsPath ([0, 1, 2, 1, 2, 1, 3, 4] ++ [5]) :=
    ⟨by decide, by decide⟩
  have hb : counting.analysis.solve {} 20 (.start counting.analysis) =
      .finished (counting.analysis.solve {} 20 (.start counting.analysis)).state := rfl
  exact ⟨hpath, counting_runsTo, _, hb, by decide, fun _ _ hx =>
    counting.analysis_covers_run hb hpath counting_runsTo hx⟩

end Program

end StaticAnalysis
