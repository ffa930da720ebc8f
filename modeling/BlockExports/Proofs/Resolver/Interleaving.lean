import BlockExports.Proofs.Resolver.Coherence

/-!
Passes that run at the same time.

The store is locked for one request, not for a pass, so the requests of several passes can come in
any order, with evictions in between. A `Session` is one store with the passes under way, and a
schedule says who goes next. `interleaved_answers` says that a pass that has had its turns holds the
answers of its own blocks, whatever the others asked for in the meantime. The argument needs nothing
of the others but that every request leaves the store coherent, and nothing of the reader of PHP but
that the empty text exports nothing.
-/

namespace BlockExports.Resolver

/-- A pass under way: the blocks it still has to ask for, and the code it has got so far. -/
structure Pass where
  file : String
  pending : List Block
  produced : List Code
  deriving DecidableEq, Repr

structure Session where
  store : Store
  passes : List Pass
  deriving DecidableEq, Repr

/-- What happens next: a pass asks for its next block, or entries are evicted. -/
inductive Turn where
  | advance (pass : Nat)
  | invalidate (file : String)
  | clear
  deriving DecidableEq, Repr

namespace Pass

/-- A pass over a component that has not asked for anything. -/
def start (options : Options) (file : String) (c : Component) : Pass :=
  ⟨file, c.blocks.filter (matching options), []⟩

variable [Php.Reader]

/-- Asks for the next block; a pass that is done stays as it is. -/
def advance (p : Pass) (s : Store) : Pass × Store :=
  match p.pending with
  | [] => (p, s)
  | b :: blocks =>
    let (response, s) := request p.file s b
    (⟨p.file, blocks, p.produced ++ response.codes.getD []⟩, s)

/-- The first `n` blocks are answered and the others are pending. -/
structure Progress (p : Pass) (file : String) (blocks : List Block) (n : Nat) : Prop where
  file_eq : p.file = file
  pending_eq : p.pending = blocks.drop n
  produced_eq : ∃ answers, List.Forall₂ Answers (blocks.take n) answers ∧
    p.produced = answers.flatten

variable {p : Pass} {file : String} {blocks : List Block} {n : Nat}

theorem progress_start (options : Options) (file : String) (c : Component) :
    (start options file c).Progress file (c.blocks.filter (matching options)) 0 where
  file_eq := rfl
  pending_eq := rfl
  produced_eq := ⟨[], by simp, rfl⟩

theorem advance_coherent {s : Store} (hs : s.Coherent) : (p.advance s).2.Coherent := by
  unfold advance
  split
  · exact hs
  · exact request_coherent p.file hs _

/-- Behind a turn one block more is answered. -/
theorem Progress.advance (hnone : analyze "" = []) {s : Store} (hs : s.Coherent)
    (h : p.Progress file blocks n) : (p.advance s).1.Progress file blocks (n + 1) := by
  obtain ⟨rfl, hpending, answers, hanswers, hproduced⟩ := h
  unfold Pass.advance
  split
  · next hdone =>
    -- all blocks are among the first `n`
    have hn : blocks.length ≤ n := List.drop_eq_nil_iff.mp (hpending.symm.trans hdone)
    refine ⟨rfl, ?_, answers, ?_, hproduced⟩
    · rw [hdone, List.drop_eq_nil_of_le (by omega)]
    · rw [List.take_of_length_le hn] at hanswers
      rwa [List.take_of_length_le (by omega)]
  · next b rest hnext =>
    obtain ⟨codes, hcodes, hb⟩ := request_answers hnone p.file hs b
    have hdrop : blocks.drop n = b :: rest := hpending.symm.trans hnext
    have htake : blocks.take (n + 1) = blocks.take n ++ [b] := by
      rw [List.take_add, hdrop]
      rfl
    refine ⟨rfl, ?_, answers ++ [codes], ?_, ?_⟩
    · rw [← List.drop_drop, hdrop]
      rfl
    · rw [htake]
      exact List.rel_append hanswers (.cons hb .nil)
    · simp [hproduced, hcodes]

end Pass

namespace Session

/-- A fresh store with a pass for each request of a host. -/
def start (options : Options) (requested : List (String × Component)) : Session :=
  ⟨.empty, requested.map fun (file, c) => .start options file c⟩

variable [Php.Reader]

def step (s : Session) : Turn → Session
  | .advance i =>
    match s.passes[i]? with
    | none => s
    | some p => ⟨(p.advance s.store).2, s.passes.set i (p.advance s.store).1⟩
  | .invalidate file => { s with store := s.store.invalidate file }
  | .clear => { s with store := s.store.clear }

def run (s : Session) (schedule : List Turn) : Session := schedule.foldl step s

theorem step_coherent {s : Session} (hs : s.store.Coherent) (t : Turn) :
    (s.step t).store.Coherent := by
  cases t with
  | advance i =>
      unfold step
      simp only
      split
      · exact hs
      · exact Pass.advance_coherent hs
  | invalidate file => exact Store.Coherent.invalidate hs file
  | clear => exact Store.coherent_empty

variable {s : Session} {i : Nat} {p : Pass} {file : String} {blocks : List Block} {n : Nat}

/-- A pass gets on by its own turns and by no others. -/
theorem step_progress (hnone : analyze "" = []) (hs : s.store.Coherent) (hp : s.passes[i]? = some p)
    (h : p.Progress file blocks n) (t : Turn) :
    ∃ p', (s.step t).passes[i]? = some p' ∧
      p'.Progress file blocks (n + [t].count (.advance i)) := by
  cases t with
  | advance j =>
      by_cases hij : j = i
      · subst hij
        have hlt : j < s.passes.length := (List.getElem?_eq_some_iff.mp hp).1
        have hstep : s.step (.advance j) =
            ⟨(p.advance s.store).2, s.passes.set j (p.advance s.store).1⟩ := by
          simp only [step, hp]
        refine ⟨(p.advance s.store).1, ?_, ?_⟩
        · rw [hstep]
          exact List.getElem?_set_self hlt
        · simpa using h.advance hnone hs
      · -- the turn of another pass changes that pass and the store
        refine ⟨p, ?_, by simpa [hij] using h⟩
        unfold step
        simp only
        split
        · exact hp
        · rw [List.getElem?_set_ne hij, hp]
  | invalidate file => exact ⟨p, hp, by simpa using h⟩
  | clear => exact ⟨p, hp, by simpa using h⟩

theorem run_progress (hnone : analyze "" = []) (hs : s.store.Coherent) (hp : s.passes[i]? = some p)
    (h : p.Progress file blocks n) (schedule : List Turn) :
    ∃ p', (s.run schedule).passes[i]? = some p' ∧
      p'.Progress file blocks (n + schedule.count (.advance i)) := by
  induction schedule generalizing s p n with
  | nil => exact ⟨p, hp, h⟩
  | cons t schedule ih =>
      obtain ⟨p₁, hp₁, h₁⟩ := step_progress hnone hs hp h t
      obtain ⟨p₂, hp₂, h₂⟩ := ih (step_coherent hs t) hp₁ h₁
      have hcount : (t :: schedule).count (.advance i) =
          [t].count (.advance i) + schedule.count (.advance i) := by
        rw [← List.singleton_append, List.count_append]
      refine ⟨p₂, hp₂, ?_⟩
      rw [hcount, ← Nat.add_assoc]
      exact h₂

end Session

/-- A pass that nobody interrupts is `generate`. -/
theorem run_alone [Php.Reader] (r : Resolver) (file : String) (c : Component) :
    (Session.mk r.store [.start r.options file c]).run
        (List.replicate (c.blocks.filter (matching r.options)).length (.advance 0)) =
      ⟨(r.generate file c).2.store, [⟨file, [], (r.generate file c).1⟩]⟩ := by
  have hrun (blocks : List Block) (s : Store) (produced : List Code) :
      (Session.mk s [⟨file, blocks, produced⟩]).run
          (List.replicate blocks.length (.advance 0)) =
        ⟨(requests file s blocks).2, [⟨file, [], produced ++
          (requests file s blocks).1.flatMap (fun response => response.codes.getD [])⟩]⟩ := by
    induction blocks generalizing s produced with
    | nil => simp [Session.run, requests]
    | cons b blocks ih =>
        have hstep : (Session.mk s [⟨file, b :: blocks, produced⟩]).step (.advance 0) =
            ⟨(request file s b).2,
              [⟨file, blocks, produced ++ (request file s b).1.codes.getD []⟩]⟩ := rfl
        rw [List.length_cons, List.replicate_succ, Session.run, List.foldl_cons, hstep]
        refine (ih _ _).trans ?_
        simp [requests]
  simpa [Pass.start, generate] using hrun (c.blocks.filter (matching r.options)) r.store []

/-- Whatever the schedule, and whatever reads the PHP as long as the empty text exports nothing, a pass
that has had a turn for each of its blocks is done and holds the answers of these blocks, in their
order. -/
theorem interleaved_answers [Php.Reader] (hnone : analyze "" = []) (options : Options)
    (requested : List (String × Component)) (schedule : List Turn) {i : Nat} {file : String}
    {c : Component} (hpass : requested[i]? = some (file, c))
    (hturns : (c.blocks.filter (matching options)).length ≤ schedule.count (.advance i)) :
    ∃ answers, List.Forall₂ Answers (c.blocks.filter (matching options)) answers ∧
      ((Session.start options requested).run schedule).passes[i]? =
        some ⟨file, [], answers.flatten⟩ := by
  have hstart : (Session.start options requested).passes[i]? = some (.start options file c) := by
    simp [Session.start, hpass]
  obtain ⟨⟨file', pending, produced⟩, hp, rfl, hpending, answers, hanswers, hproduced⟩ :=
    Session.run_progress hnone Store.coherent_empty hstart (Pass.progress_start options file c)
      schedule
  simp only [Nat.zero_add] at hpending hanswers hproduced
  rw [List.take_of_length_le hturns] at hanswers
  rw [List.drop_eq_nil_of_le hturns] at hpending
  subst hpending hproduced
  exact ⟨answers, hanswers, hp⟩

/-- Two versions of a file at the same time, with an eviction in between; the second block of the
later version is empty. -/
theorem interleaved_answers_two_versions :
    let older : Component :=
      ⟨[⟨"customBlock_0", "php", "$a = 1; export($a);", 5⟩,
        ⟨"customBlock_1", "php", "$b; export($b);", 36⟩]⟩
    let later : Component :=
      ⟨[⟨"customBlock_0", "php", "$a = 'x'; export($a);", 5⟩, ⟨"customBlock_1", "php", "", 38⟩]⟩
    let requested := [("App.vue", older), ("App.vue", later)]
    let schedule : List Turn :=
      [.advance 0, .advance 1, .invalidate "App.vue", .advance 0, .advance 1]
    analyze "" = [] ∧ requested[1]? = some ("App.vue", later) ∧
      (later.blocks.filter (matching .standard)).length ≤ schedule.count (.advance 1) ∧
      ∃ answers, List.Forall₂ Answers (later.blocks.filter (matching .standard)) answers ∧
        ((Session.start .standard requested).run schedule).passes[1]? =
          some ⟨"App.vue", [], answers.flatten⟩ := by
  intro older later requested schedule
  have hpass : requested[1]? = some ("App.vue", later) := rfl
  have hturns : (later.blocks.filter (matching .standard)).length ≤
      schedule.count (.advance 1) := by decide
  exact ⟨analyze_empty, hpass, hturns,
    interleaved_answers analyze_empty .standard requested schedule hpass hturns⟩

end BlockExports.Resolver
