import KernelBridge.Userspace.Process

/-!
# The main thread of the concurrency test

What `main` knows of the threads: those it has created are the first ones, those it has joined have
returned, and when it comes to its verdict all of them have been created and joined (`Startup`). A
step is one of the main thread or of a thread that is running (`Step.main_or_moved`), so nothing
happens any more when `main` has returned.
-/

namespace ConcurrentTest

variable {opts : TestOptions} {σ : Type} {platform : Platform σ}

/-- The threads that have been created are the first ones. -/
def Created {α : Type} {n : ℕ} (thread : Fin n → Thread α) (started : ℕ) : Prop :=
  ∀ i, thread i = .absent ↔ started ≤ i

/-- No thread appears or disappears, and a thread that has returned stays so. -/
def Evolves {α : Type} {n : ℕ} (exit : α) (thread thread' : Fin n → Thread α) : Prop :=
  ∀ i, (thread' i = .absent ↔ thread i = .absent) ∧
    (thread i = .opened exit → thread' i = .opened exit)

/-- The threads below `index` have returned. -/
def Joined {α : Type} {n : ℕ} (exit : α) (thread : Fin n → Thread α) (index : ℕ) : Prop :=
  ∀ i : Fin n, i < index → thread i = .opened exit

/-- A thread that has been created and has not returned. -/
def Thread.Live {α : Type} (exit : α) (thread : Thread α) : Prop :=
  thread ≠ .absent ∧ thread ≠ .opened exit

section Threads

open Function

variable {α : Type} {n : ℕ} {exit : α} {thread : Fin n → Thread α} {started : ℕ}

/-- Nothing has moved. -/
theorem Evolves.refl (exit : α) (thread : Fin n → Thread α) : Evolves exit thread thread :=
  fun _ => ⟨Iff.rfl, id⟩

/-- A thread that lives moves on. -/
theorem Evolves.update {i : Fin n} (h : (thread i).Live exit) {t : Thread α} (ht : t ≠ .absent) :
    Evolves exit thread (update thread i t) := by
  refine (forall_update_iff thread fun j t => (t = .absent ↔ thread j = .absent) ∧
    (thread j = .opened exit → t = .opened exit)).mpr ⟨⟨?_, ?_⟩, fun j _ => ⟨Iff.rfl, id⟩⟩
  · exact ⟨fun heq => absurd heq ht, fun heq => absurd heq h.1⟩
  · exact fun heq => absurd heq h.2

/-- A thread at a place of its loop lives. -/
theorem Thread.live_of_opened {t : Thread α} {pc : α} (h : t = .opened pc) (hpc : pc ≠ exit) :
    t.Live exit := by
  subst h
  exact ⟨fun heq => (by cases heq), fun heq => hpc (Thread.opened.inj heq)⟩

/-- A thread in front of its loop is running, and is there behind its step. -/
theorem Thread.start_live {entry : α} {ok : Bool} {s s' : SharedState} {t t' : Thread α}
    (h : t.start entry exit ok s = some (t', s')) : t.Live exit ∧ t' ≠ .absent := by
  cases t with
  | absent | opened => cases h
  | starting =>
    obtain ⟨rfl, -⟩ := Prod.mk.inj (Option.some.inj h)
    cases ok <;> exact ⟨⟨by simp, by simp⟩, by simp⟩
  | refused | cancelling =>
    obtain ⟨rfl, -⟩ := Prod.mk.inj (Option.some.inj h)
    exact ⟨⟨by simp, by simp⟩, by simp⟩

/-- A property of some thread, after one has moved. -/
theorem exists_of_update {P : α → Prop} {f : Fin n → α} {i : Fin n} {a : α}
    (h : ∃ j, P (Function.update f i a j)) : P a ∨ ∃ j, P (f j) := by
  obtain ⟨j, hj⟩ := h
  by_cases heq : j = i
  · subst heq
    rw [update_self] at hj
    exact .inl hj
  · rw [update_of_ne heq] at hj
    exact .inr ⟨j, hj⟩

/-- A property of all threads, after one has moved. -/
theorem forall_of_update {P : α → Prop} {f : Fin n → α} {i : Fin n} {a : α}
    (h : ∀ j, P (Function.update f i a j)) : P a ∧ (P (f i) → ∀ j, P (f j)) := by
  obtain ⟨hself, hrest⟩ := (forall_update_iff f fun _ a => P a).mp h
  refine ⟨hself, fun hi j => ?_⟩
  by_cases heq : j = i
  · exact heq ▸ hi
  · exact hrest j heq

/-- The threads that were created stay created. -/
theorem Created.evolves (h : Created thread started) {thread' : Fin n → Thread α}
    (he : Evolves exit thread thread') : Created thread' started :=
  fun i => (he i).1.trans (h i)

/-- The next thread is created. -/
theorem Created.create {index : ℕ} (h : Created thread index) (hindex : index < n) :
    Created (update thread ⟨index, hindex⟩ .starting) (index + 1) := by
  refine (forall_update_iff thread fun i t => t = .absent ↔ index + 1 ≤ i).mpr ⟨?_, fun i hne => ?_⟩
  · simp
  · rw [h i]
    have : (i : ℕ) ≠ index := fun heq => hne (Fin.ext heq)
    omega

end Threads

namespace Process

/-- Unless a thread could not be created, all threads have been. -/
def AllStarted (p : Process opts σ) : Prop :=
  p.startupFailed = false → opts.writers ≤ p.writersStarted ∧ opts.readers ≤ p.readersStarted

/-- What the place of the main thread says about the others. -/
def MainOk (p : Process opts σ) : Prop :=
  match p.main with
  | .setup => p.readersStarted = 0 ∧ p.writersStarted = 0
  | .createReader index => p.readersStarted = index ∧ p.writersStarted = 0
  | .createWriter index => opts.readers ≤ p.readersStarted ∧ p.writersStarted = index
  | .abort => True
  | .joinWriter index => p.AllStarted ∧ Joined .done p.writer index
  | .joinReader index =>
    p.AllStarted ∧ (∀ w, ¬ (p.writer w).Live .done) ∧ Joined .done p.reader index
  | .verdict =>
    p.startupFailed = false ∧ (∀ w, p.writer w = .opened .done) ∧ ∀ r, p.reader r = .opened .done
  | .exited _ => (∀ w, ¬ (p.writer w).Live .done) ∧ ∀ r, ¬ (p.reader r).Live .done

/-- The threads that have been created and joined are those that the main thread has counted. -/
structure Startup (p : Process opts σ) : Prop where
  writers : Created p.writer p.writersStarted
  readers : Created p.reader p.readersStarted
  main : p.MainOk

/-- A step of a thread other than the main one, as the main thread sees it. -/
structure Moved (p p' : Process opts σ) : Prop where
  main : p'.main = p.main
  writersStarted : p'.writersStarted = p.writersStarted
  readersStarted : p'.readersStarted = p.readersStarted
  startupFailed : p'.startupFailed = p.startupFailed
  writer : Evolves .done p.writer p'.writer
  reader : Evolves .done p.reader p'.reader
  live : (∃ w, (p.writer w).Live .done) ∨ ∃ r, (p.reader r).Live .done

/-- The process at its start. -/
theorem Startup.init (device : Device σ) : Startup (Process.init opts device) where
  writers _ := ⟨fun _ => Nat.zero_le _, fun _ => rfl⟩
  readers _ := ⟨fun _ => Nat.zero_le _, fun _ => rfl⟩
  main := ⟨rfl, rfl⟩

/-- What moves threads that live leaves the startup as it is. -/
theorem Startup.moved {p p' : Process opts σ} (h : Startup p) (hmoved : Moved p p') :
    Startup p' where
  writers := hmoved.writersStarted ▸ h.writers.evolves hmoved.writer
  readers := hmoved.readersStarted ▸ h.readers.evolves hmoved.reader
  main := by
    have hmain := h.main
    have hall : p.AllStarted → p'.AllStarted := by
      rw [AllStarted, AllStarted, hmoved.startupFailed, hmoved.writersStarted,
        hmoved.readersStarted]
      exact id
    rw [MainOk] at hmain ⊢
    rw [hmoved.main]
    cases hpc : p.main with
    | setup =>
      rw [hpc] at hmain
      exact ⟨hmoved.readersStarted.trans hmain.1, hmoved.writersStarted.trans hmain.2⟩
    | createReader index =>
      rw [hpc] at hmain
      exact ⟨hmoved.readersStarted.trans hmain.1, hmoved.writersStarted.trans hmain.2⟩
    | createWriter index =>
      rw [hpc] at hmain
      exact ⟨hmain.1.trans hmoved.readersStarted.ge, hmoved.writersStarted.trans hmain.2⟩
    | abort => trivial
    | joinWriter index =>
      rw [hpc] at hmain
      exact ⟨hall hmain.1, fun w hlt => (hmoved.writer w).2 (hmain.2 w hlt)⟩
    | joinReader index =>
      rw [hpc] at hmain
      refine ⟨hall hmain.1, fun w hlive => hmain.2.1 w ⟨fun heq => ?_, fun heq => ?_⟩,
        fun r hlt => (hmoved.reader r).2 (hmain.2.2 r hlt)⟩
      · exact hlive.1 ((hmoved.writer w).1.mpr heq)
      · exact hlive.2 ((hmoved.writer w).2 heq)
    | verdict =>
      -- all threads have returned, so none takes a step
      rw [hpc] at hmain
      rcases hmoved.live with ⟨w, hlive⟩ | ⟨r, hlive⟩
      · exact absurd (hmain.2.1 w) hlive.2
      · exact absurd (hmain.2.2 r) hlive.2
    | exited exitCode =>
      rw [hpc] at hmain
      rcases hmoved.live with ⟨w, hlive⟩ | ⟨r, hlive⟩
      · exact absurd hlive (hmain.1 w)
      · exact absurd hlive (hmain.2 r)

/-- The main thread keeps its count of the threads. -/
theorem Startup.mainStep {p p' : Process opts σ} (h : Startup p) {ok : Bool}
    (hstep : mainStep ok p = some p') : Startup p' := by
  obtain ⟨hwriters, hreaders, hmain⟩ := h
  rw [MainOk] at hmain
  rw [ConcurrentTest.mainStep] at hstep
  -- a thread that is joined or was never created is not running
  have hended {α : Type} {n : ℕ} {exit : α} {thread : Fin n → Thread α} {index started : ℕ}
      (hcreated : Created thread started) (hindex : ¬ index < started)
      (hjoined : Joined exit thread index) (i : Fin n) : ¬ (thread i).Live exit := by
    rintro ⟨hcreated', hrunning⟩
    by_cases hlt : (i : ℕ) < index
    · exact hrunning (hjoined i hlt)
    · exact hcreated' ((hcreated i).mpr (by omega))
  have hjoin {α : Type} {n : ℕ} {exit : α} {thread : Fin n → Thread α} {index : ℕ}
      (hjoined : Joined exit thread index)
      (hreturned : ∀ i : Fin n, i = index → thread i = .opened exit) :
      Joined exit thread (index + 1) := by
    intro i hlt
    rcases Nat.lt_succ_iff_lt_or_eq.mp hlt with hlt | heq
    · exact hjoined i hlt
    · exact hreturned i heq
  cases hpc : p.main with
  | setup =>
    rw [hpc] at hstep hmain
    obtain rfl := Option.some.inj hstep
    refine ⟨hwriters, hreaders, ?_⟩
    cases ok with
    | true => exact hmain
    | false =>
      exact ⟨hended (hmain.2 ▸ hwriters) (lt_irrefl 0) fun _ hlt => absurd hlt (Nat.not_lt_zero _),
        hended (hmain.1 ▸ hreaders) (lt_irrefl 0) fun _ hlt => absurd hlt (Nat.not_lt_zero _)⟩
  | createReader index =>
    simp only [hpc] at hstep hmain
    obtain ⟨rfl, hnone⟩ := hmain
    split_ifs at hstep with hindex hok <;> obtain rfl := Option.some.inj hstep
    · exact ⟨hwriters, hreaders.create hindex, rfl, hnone⟩
    · exact ⟨hwriters, hreaders, trivial⟩
    · exact ⟨hwriters, hreaders, not_lt.mp hindex, hnone⟩
  | createWriter index =>
    simp only [hpc] at hstep hmain
    obtain ⟨hall, rfl⟩ := hmain
    split_ifs at hstep with hindex hok <;> obtain rfl := Option.some.inj hstep
    · exact ⟨hwriters.create hindex, hreaders, hall, rfl⟩
    · exact ⟨hwriters, hreaders, trivial⟩
    · exact ⟨hwriters, hreaders, fun _ => ⟨not_lt.mp hindex, hall⟩,
        fun _ hlt => absurd hlt (Nat.not_lt_zero _)⟩
  | abort =>
    rw [hpc] at hstep
    obtain rfl := Option.some.inj hstep
    exact ⟨hwriters, hreaders, fun hfailed => (by cases hfailed),
      fun _ hlt => absurd hlt (Nat.not_lt_zero _)⟩
  | joinWriter index =>
    simp only [hpc] at hstep hmain
    split_ifs at hstep with hindex hreturned <;> obtain rfl := Option.some.inj hstep
    · exact ⟨hwriters, hreaders, hmain.1, hjoin hmain.2 hreturned⟩
    · exact ⟨hwriters, hreaders, hmain.1, hended hwriters hindex hmain.2,
        fun _ hlt => absurd hlt (Nat.not_lt_zero _)⟩
  | joinReader index =>
    simp only [hpc] at hstep hmain
    obtain ⟨hall, hwritersEnded, hjoined⟩ := hmain
    split_ifs at hstep with hindex hreturned hfailed <;> obtain rfl := Option.some.inj hstep
    · exact ⟨hwriters, hreaders, hall, hwritersEnded, hjoin hjoined hreturned⟩
    · exact ⟨hwriters, hreaders, hwritersEnded, hended hreaders hindex hjoined⟩
    · -- all threads have been created, so those that are not running have returned
      obtain ⟨hallWriters, hallReaders⟩ := hall (Bool.eq_false_iff.mpr hfailed)
      have hreadersEnded := hended hreaders hindex hjoined
      refine ⟨hwriters, hreaders, Bool.eq_false_iff.mpr hfailed, fun w => ?_, fun r => ?_⟩
      · by_contra hrunning
        exact hwritersEnded w ⟨fun heq => by have := (hwriters w).mp heq; omega, hrunning⟩
      · by_contra hrunning
        exact hreadersEnded r ⟨fun heq => by have := (hreaders r).mp heq; omega, hrunning⟩
  | verdict =>
    rw [hpc] at hstep hmain
    obtain rfl := Option.some.inj hstep
    exact ⟨hwriters, hreaders, fun w hlive => hlive.2 (hmain.2.1 w),
      fun r hlive => hlive.2 (hmain.2.2 r)⟩
  | exited exitCode =>
    rw [hpc] at hstep
    cases hstep

/-- A writer that lives moves on. -/
theorem Moved.of_writer {p p' : Process opts σ} {w : Fin opts.writers} {t : Thread (WriterPc opts)}
    (hlive : (p.writer w).Live .done) (ht : t ≠ .absent)
    (hwriter : p'.writer = Function.update p.writer w t) (hreader : p'.reader = p.reader)
    (hmain : p'.main = p.main ∧ p'.writersStarted = p.writersStarted ∧
      p'.readersStarted = p.readersStarted ∧ p'.startupFailed = p.startupFailed) : Moved p p' where
  main := hmain.1
  writersStarted := hmain.2.1
  readersStarted := hmain.2.2.1
  startupFailed := hmain.2.2.2
  writer := hwriter ▸ .update hlive ht
  reader := hreader ▸ .refl _ _
  live := .inl ⟨w, hlive⟩

/-- A reader that lives moves on. -/
theorem Moved.of_reader {p p' : Process opts σ} {r : Fin opts.readers} {t : Thread ReaderPc}
    (hlive : (p.reader r).Live .done) (ht : t ≠ .absent) (hwriter : p'.writer = p.writer)
    (hreader : p'.reader = Function.update p.reader r t)
    (hmain : p'.main = p.main ∧ p'.writersStarted = p.writersStarted ∧
      p'.readersStarted = p.readersStarted ∧ p'.startupFailed = p.startupFailed) : Moved p p' where
  main := hmain.1
  writersStarted := hmain.2.1
  readersStarted := hmain.2.2.1
  startupFailed := hmain.2.2.2
  writer := hwriter ▸ .refl _ _
  reader := hreader ▸ .update hlive ht
  live := .inr ⟨r, hlive⟩

/-- A step is one of the main thread, or of a thread that is running. -/
theorem Step.main_or_moved {p p' : Process opts σ} {e : Event} (h : Step opts platform p e p') :
    (e = .tau ∧ ∃ ok, (ok = false → platform.mayRefuse = true) ∧
      ConcurrentTest.mainStep ok p = some p') ∨ Moved p p' := by
  cases h with
  | main may h => exact .inl ⟨rfl, _, may, h⟩
  | startWriter w may h =>
    obtain ⟨hlive, hthread⟩ := Thread.start_live h
    exact .inr (.of_writer hlive hthread rfl rfl ⟨rfl, rfl, rfl, rfl⟩)
  | startReader r may h =>
    obtain ⟨hlive, hthread⟩ := Thread.start_live h
    exact .inr (.of_reader hlive hthread rfl rfl ⟨rfl, rfl, rfl, rfl⟩)
  | writer w h step =>
    refine .inr (.of_writer (Thread.live_of_opened h fun heq => ?_) (by simp) rfl rfl
      ⟨rfl, rfl, rfl, rfl⟩)
    rw [heq] at step
    cases step
  | writeLock w h | write w h | writeUnlock w h =>
    exact .inr (.of_writer (Thread.live_of_opened h (by simp)) (by simp) rfl rfl
      ⟨rfl, rfl, rfl, rfl⟩)
  | reader r h step =>
    refine .inr (.of_reader (Thread.live_of_opened h fun heq => ?_) (by simp) rfl rfl
      ⟨rfl, rfl, rfl, rfl⟩)
    rw [heq] at step
    cases step
  | readLock r h | read r h | append r h | overflow r h | readUnlock r h =>
    exact .inr (.of_reader (Thread.live_of_opened h (by simp)) (by simp) rfl rfl
      ⟨rfl, rfl, rfl, rfl⟩)

/-- Every step keeps to the startup. -/
theorem Step.startup {p p' : Process opts σ} {e : Event} (h : Step opts platform p e p')
    (hstartup : Startup p) : Startup p' := by
  rcases h.main_or_moved with ⟨-, ok, -, hmain⟩ | hmoved
  · exact hstartup.mainStep hmain
  · exact hstartup.moved hmoved

/-- The main thread has returned. -/
def Exited (p : Process opts σ) : Prop := ∃ exitCode, p.main = .exited exitCode

/-- A thread that runs has neither the verdict nor the exit in front of it. -/
theorem Startup.running {p p' : Process opts σ} (h : Startup p) (hmoved : Moved p p') :
    p.main ≠ .verdict ∧ ¬ p.Exited := by
  have hmain := h.main
  rw [MainOk] at hmain
  refine ⟨fun hverdict => ?_, ?_⟩
  · rw [hverdict] at hmain
    rcases hmoved.live with ⟨w, hlive⟩ | ⟨r, hlive⟩
    · exact hlive.2 (hmain.2.1 w)
    · exact hlive.2 (hmain.2.2 r)
  · rintro ⟨exitCode, hexited⟩
    rw [hexited] at hmain
    rcases hmoved.live with ⟨w, hlive⟩ | ⟨r, hlive⟩
    · exact hmain.1 w hlive
    · exact hmain.2 r hlive

/-- A step that does not exit comes from in front of the verdict. -/
theorem Step.not_exited {p p' : Process opts σ} {e : Event} (hstep : Step opts platform p e p')
    (hstartup : Startup p) (hexited : ¬ p'.Exited) : p.main ≠ .verdict ∧ ¬ p.Exited := by
  rcases hstep.main_or_moved with ⟨-, ok, -, hmain⟩ | hmoved
  · rw [mainStep] at hmain
    refine ⟨fun heq => hexited ?_, ?_⟩
    · -- the verdict is the last step
      rw [heq] at hmain
      obtain rfl := Option.some.inj hmain
      exact ⟨_, rfl⟩
    · rintro ⟨exitCode, heq⟩
      rw [heq] at hmain
      cases hmain
  · exact hstartup.running hmoved

end Process

end ConcurrentTest
