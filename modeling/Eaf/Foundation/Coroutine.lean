import Mathlib.Tactic.Cases
import Eaf.Foundation.LabelledRun

/-!
# Coroutines

Programs that can be suspended.  A coroutine that yields leaves behind what it
still has to do, as a list of programs; resuming it runs that list.  This is
what the programmer of a coroutine has in mind.  When every `yield` has a label
of its own, what is left to do can be read off the label, so that the label
suffices to resume.
-/

namespace Coroutine

variable {σ κ ι : Type*}

/-- Programs over memories `σ`; a `yield` has a label and shows something to
whoever waits for the coroutine. -/
inductive Program (σ κ ι : Type*)
  | act (f : σ → σ)
  | yield (n : κ) (shown : ι)
  | seq (a b : Program σ κ ι)
  | cond (c : σ → Bool) (a b : Program σ κ ι)
  | loop (c : σ → Bool) (body : Program σ κ ι)

/-- How a coroutine stops: it is done, or it is suspended and has the rest to
do. -/
inductive Stop (σ κ ι : Type*)
  | done (s : σ)
  | suspended (n : κ) (shown : ι) (rest : List (Program σ κ ι)) (s : σ)

/-- A stop that is not the end yet. -/
def Stop.andThen (more : List (Program σ κ ι))
    (continue_ : σ → Option (Stop σ κ ι)) : Stop σ κ ι → Option (Stop σ κ ι)
  | .done s => continue_ s
  | .suspended n shown rest s => some (.suspended n shown (rest ++ more) s)

/-- The passes of a loop with a body that is known. -/
def passes (c : σ → Bool) (again : Program σ κ ι)
    (body : σ → Option (Stop σ κ ι)) : Nat → σ → Option (Stop σ κ ι)
  | 0, _ => none
  | n + 1, s =>
      if c s then (body s).bind
        (Stop.andThen [again] (passes c again body n))
      else some (.done s)

/-- Run a program until it is done or suspended; `none` when a loop has used
its `fuel` up. -/
def run (fuel : Nat) : Program σ κ ι → σ → Option (Stop σ κ ι)
  | .act f, s => some (.done (f s))
  | .yield n shown, s => some (.suspended n shown [] s)
  | .seq a b, s => (run fuel a s).bind (Stop.andThen [b] (run fuel b))
  | .cond c a b, s => if c s then run fuel a s else run fuel b s
  | .loop c body, s => passes c (.loop c body) (run fuel body) fuel s

/-- Run several programs one after the other. -/
def runAll (fuel : Nat) : List (Program σ κ ι) → σ → Option (Stop σ κ ι)
  | [], s => some (.done s)
  | p :: rest, s => (run fuel p s).bind (Stop.andThen rest (runAll fuel rest))

/-- The labels of a program. -/
def Program.labels : Program σ κ ι → List κ
  | .act _ => []
  | .yield n _ => [n]
  | .seq a b | .cond _ a b => a.labels ++ b.labels
  | .loop _ body => body.labels

/-- What a program has to do behind the `yield` with label `n`. -/
@[simp] def Program.after [DecidableEq κ] (n : κ) :
    Program σ κ ι → List (Program σ κ ι)
  | .act _ | .yield _ _ => []
  | .seq a b => if n ∈ a.labels then a.after n ++ [b] else b.after n
  | .cond _ a b => if n ∈ a.labels then a.after n else b.after n
  | .loop c body => body.after n ++ [.loop c body]

/-- One activation of a coroutine: what it was entered with, what it has shown
unless it is done, and what it has left behind. -/
structure Activation (σ ι : Type*) where
  enter : σ
  shown : Option ι
  leave : σ
  deriving DecidableEq

/-- Whoever waits for a coroutine resumes it, with a memory that others may have
changed in the meantime; nothing is left when it is done. -/
inductive Resume : Option (List (Program σ κ ι)) → List (Activation σ ι) →
    Option (List (Program σ κ ι)) → Prop
  | yields {fuel : Nat} {K rest : List (Program σ κ ι)} {s s' : σ} {n : κ}
      {shown : ι} (h : runAll fuel K s = some (.suspended n shown rest s')) :
      Resume (some K) [⟨s, some shown, s'⟩] (some rest)
  | ends {fuel : Nat} {K : List (Program σ κ ι)} {s s' : σ}
      (h : runAll fuel K s = some (.done s')) :
      Resume (some K) [⟨s, none, s'⟩] none

/-- The activations of a program from its start, and what is left to do. -/
abbrev Activations (p : Program σ κ ι) (acts : List (Activation σ ι))
    (rest : Option (List (Program σ κ ι))) : Prop :=
  LabelledRun.Run Resume (some [p]) acts rest

/-! ## Running several programs -/

section Rules

variable {fuel : Nat} {p : Program σ κ ι} {K K' : List (Program σ κ ι)}
  {s s' : σ} {n : κ} {shown : ι} {rest : List (Program σ κ ι)}

@[simp] theorem runAll_nil (s : σ) :
    runAll fuel ([] : List (Program σ κ ι)) s = some (.done s) := rfl

theorem Stop.andThen_nil (stop : Stop σ κ ι) :
    stop.andThen [] (fun s => some (.done s)) = some stop := by
  cases stop <;> simp [Stop.andThen]

theorem runAll_singleton (p : Program σ κ ι) (s : σ) :
    runAll fuel [p] s = run fuel p s := by
  simp only [runAll]
  cases run fuel p s with
  | none => rfl
  | some stop => exact stop.andThen_nil

/-- Running two lists one after the other. -/
theorem runAll_append (K K' : List (Program σ κ ι)) (s : σ) :
    runAll fuel (K ++ K') s =
      (runAll fuel K s).bind (Stop.andThen K' (runAll fuel K')) := by
  induction K generalizing s with
  | nil => rfl
  | cons p K ih =>
      rw [List.cons_append]
      simp only [runAll]
      cases run fuel p s with
      | none => rfl
      | some stop =>
          cases stop with
          | done s' => exact ih s'
          | suspended n shown rest s' => simp [Stop.andThen]

/-! ## A label knows what is left to do -/

/-- A suspended program is suspended at one of its labels, and what it has to
do is what comes behind this label. -/
def Labelled (ns : List κ) (after : κ → List (Program σ κ ι)) :
    Stop σ κ ι → Prop
  | .done _ => True
  | .suspended n _ rest _ => n ∈ ns ∧ rest = after n

theorem Labelled.mono {ns ns' : List κ}
    {after after' : κ → List (Program σ κ ι)} {stop : Stop σ κ ι}
    (h : Labelled ns after stop)
    (hns : ∀ n ∈ ns, n ∈ ns' ∧ after' n = after n) :
    Labelled ns' after' stop := by
  cases stop with
  | done s => trivial
  | suspended n shown rest s => exact ⟨(hns n h.1).1, h.2.trans (hns n h.1).2.symm⟩

/-- What comes behind a label when more follows. -/
theorem Labelled.andThen {ns ns' : List κ}
    {after after' : κ → List (Program σ κ ι)}
    {more : List (Program σ κ ι)} {continue_ : σ → Option (Stop σ κ ι)}
    {first last : Stop σ κ ι} (hfirst : Labelled ns after first)
    (hns : ∀ n ∈ ns, n ∈ ns' ∧ after' n = after n ++ more)
    (hlast : ∀ s, continue_ s = some last → Labelled ns' after' last)
    (h : first.andThen more continue_ = some last) :
    Labelled ns' after' last := by
  cases first with
  | done s => exact hlast s h
  | suspended n shown rest s =>
      obtain ⟨hn, rfl⟩ := hfirst
      cases h
      exact ⟨(hns n hn).1, ((hns n hn).2).symm⟩

/-- The labels of the second part of a program are not labels of the first. -/
theorem labels_right {a b : Program σ κ ι}
    (hab : (a.labels ++ b.labels).Nodup) (hn : n ∈ b.labels) :
    n ∉ a.labels :=
  fun hna => (List.nodup_append.mp hab).2.2 n hna n hn rfl

variable [DecidableEq κ]

theorem passes_labelled {c : σ → Bool} {body : Program σ κ ι}
    (hbody : ∀ s stop, run fuel body s = some stop →
      Labelled body.labels (body.after ·) stop) {left : Nat}
    {stop : Stop σ κ ι}
    (h : passes c (.loop c body) (run fuel body) left s = some stop) :
    Labelled body.labels ((Program.loop c body).after ·) stop := by
  induction left generalizing s with
  | zero => cases h
  | succ left ih =>
      rw [passes] at h
      split at h
      · obtain ⟨first, hfirst, hrest⟩ := Option.bind_eq_some_iff.mp h
        exact (hbody s first hfirst).andThen (fun n hn => ⟨hn, rfl⟩)
          (fun s' h' => ih h') hrest
      · cases h
        trivial

/-- A program with different labels stops at one of them. -/
theorem run_labelled (hp : p.labels.Nodup) {stop : Stop σ κ ι}
    (h : run fuel p s = some stop) : Labelled p.labels (p.after ·) stop := by
  induction p generalizing s stop with
  | act f =>
      cases h
      trivial
  | yield n shown =>
      cases h
      exact ⟨List.mem_singleton_self n, rfl⟩
  | seq a b iha ihb =>
      obtain ⟨ha, hb, -⟩ := List.nodup_append.mp hp
      obtain ⟨first, hfirst, hrest⟩ := Option.bind_eq_some_iff.mp h
      refine (iha ha hfirst).andThen (fun n hn => ?_) (fun s' h' => ?_) hrest
      · exact ⟨List.mem_append_left _ hn, by simp [Program.after, hn]⟩
      · exact (ihb hb h').mono fun n hn => ⟨List.mem_append_right _ hn,
          by simp [Program.after, labels_right hp hn]⟩
  | cond c a b iha ihb =>
      obtain ⟨ha, hb, -⟩ := List.nodup_append.mp hp
      rw [run] at h
      split at h
      · exact (iha ha h).mono fun n hn => ⟨List.mem_append_left _ hn,
          by simp [Program.after, hn]⟩
      · exact (ihb hb h).mono fun n hn => ⟨List.mem_append_right _ hn,
          by simp [Program.after, labels_right hp hn]⟩
  | loop c body ih => exact passes_labelled (fun s stop h => ih hp h) h

/-- What is left to do behind a label stops at one of the labels again. -/
theorem runAll_after_labelled (hp : p.labels.Nodup) {stop : Stop σ κ ι}
    (h : runAll fuel (p.after n) s = some stop) :
    Labelled p.labels (p.after ·) stop := by
  induction p generalizing s stop with
  | act f =>
      cases h
      trivial
  | yield m shown =>
      cases h
      trivial
  | seq a b iha ihb =>
      obtain ⟨ha, hb, -⟩ := List.nodup_append.mp hp
      have hright : ∀ {stop}, Labelled b.labels (b.after ·) stop →
          Labelled (a.seq b).labels ((a.seq b).after ·) stop :=
        fun hstop => hstop.mono fun m hm => ⟨List.mem_append_right _ hm,
          by simp [Program.after, labels_right hp hm]⟩
      rw [Program.after] at h
      split at h
      · rw [runAll_append] at h
        obtain ⟨first, hfirst, hrest⟩ := Option.bind_eq_some_iff.mp h
        refine (iha ha hfirst).andThen (fun m hm => ?_) (fun s' h' => ?_) hrest
        · exact ⟨List.mem_append_left _ hm, by simp [Program.after, hm]⟩
        · exact hright (run_labelled hb ((runAll_singleton b s').symm.trans h'))
      · exact hright (ihb hb h)
  | cond c a b iha ihb =>
      obtain ⟨ha, hb, -⟩ := List.nodup_append.mp hp
      rw [Program.after] at h
      split at h
      · exact (iha ha h).mono fun m hm => ⟨List.mem_append_left _ hm,
          by simp [Program.after, hm]⟩
      · exact (ihb hb h).mono fun m hm => ⟨List.mem_append_right _ hm,
          by simp [Program.after, labels_right hp hm]⟩
  | loop c body ih =>
      rw [Program.after, runAll_append] at h
      obtain ⟨first, hfirst, hrest⟩ := Option.bind_eq_some_iff.mp h
      refine (ih hp hfirst).andThen (fun m hm => ⟨hm, rfl⟩) (fun s' h' => ?_)
        hrest
      exact run_labelled (p := .loop c body) hp
        ((runAll_singleton _ s').symm.trans h')

end Rules

end Coroutine
