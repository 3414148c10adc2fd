import Keyring.FileSystem
import Mathlib

/-! What a file system holds once a file was put into it: a path still leads to the same place, that place
holds the new file, and every other place is as before. -/
namespace Keyring.FileSystem

variable (fs : FileSystem)

@[simp] lemma isDirectory_put (l m : Location) (f : File) :
    (fs.put l f).isDirectory m = fs.isDirectory m := rfl

@[simp] lemma file?_put_self (l : Location) (f : File) : (fs.put l f).file? l = some f := by
  simp [file?,put]

lemma lookup_filter_ne {l m : Location} (h : m ≠ l) (files : List (Location × File)) :
    (files.filter fun p => p.1 ≠ l).lookup m = files.lookup m := by
  induction files with
  | nil => rfl
  | cons p files ih =>
    by_cases hp : p.1 = l
    · have hm : (m == p.1) = false := beq_eq_false_iff_ne.mpr (hp ▸ h)
      rw [List.filter_cons_of_neg (by simp [hp]),ih,List.lookup_cons,hm]
    · rw [List.filter_cons_of_pos (by simp [hp]),List.lookup_cons,List.lookup_cons,ih]

lemma file?_put_of_ne {l m : Location} (h : m ≠ l) (f : File) :
    (fs.put l f).file? m = fs.file? m := by
  have hm : (m == l) = false := beq_eq_false_iff_ne.mpr h
  simp only [file?,put,List.lookup,hm]
  exact lookup_filter_ne h fs.files

/-- A walk that arrives has passed through directories only. -/
lemma walk_put {fs : FileSystem} {m d : Location} {names : List String} (l : Location) (f : File)
    (h : fs.walk m names = .ok d) : (fs.put l f).walk m names = .ok d := by
  induction names generalizing m with
  | nil => exact h
  | cons name names ih =>
    simp only [walk] at h ⊢
    split at h
    · next hn => rw [if_pos hn]; exact ih h
    · next hn =>
      rw [if_neg hn]
      split at h
      · next hu => rw [if_pos hu]; exact ih h
      · next hu =>
        rw [if_neg hu]
        split at h
        · cases h
        · next hs =>
          rw [if_neg hs]
          split at h
          · next hd => rw [isDirectory_put,if_pos hd]; exact ih h
          · split at h <;> cases h

lemma resolve_put {fs : FileSystem} {path : String} {p : Place} (l : Location) (f : File)
    (h : fs.resolve path = .ok p) : (fs.put l f).resolve path = .ok p := by
  simp only [resolve] at h ⊢
  split at h
  · cases h
  · next h₁ =>
    rw [if_neg h₁]
    split at h
    · cases h
    · next h₂ =>
      rw [if_neg h₂]
      split at h
      · cases h
      · next h₃ =>
        rw [if_neg h₃]
        cases hn : names path with
        | nil => simpa [hn] using h
        | cons last r =>
          simp only [hn] at h ⊢
          cases hw : fs.walk [] r.reverse with
          | error e => simp [hw,bind,Except.bind] at h
          | ok d =>
            simp only [hw,walk_put l f hw,bind,Except.bind] at h ⊢
            split at h
            · next h₄ =>
              rw [if_pos h₄]
              cases hv : fs.walk d [last] with
              | error e => simp [hv] at h
              | ok d' => simpa [hv,walk_put l f hv] using h
            · next h₄ => rw [if_neg h₄]; exact h

/-- What it means that a file can be written at a path. -/
lemma target_eq_ok_iff {path : String} {l : Location} :
    fs.target path = .ok l ↔ fs.resolve path = .ok (.entry l false) ∧ fs.isDirectory l = false := by
  simp only [target]
  cases h : fs.resolve path with
  | error e => simp [bind,Except.bind]
  | ok p =>
    cases p with
    | directory d => simp [bind,Except.bind]
    | entry m slash =>
      simp only [bind,Except.bind,Except.ok.injEq,Place.entry.injEq]
      by_cases hs : slash || fs.isDirectory m
      · simp only [hs,if_true,reduceCtorEq,false_iff]
        rintro ⟨⟨rfl,rfl⟩,hd⟩
        simp [hd] at hs
      · simp only [hs,Bool.false_eq_true,if_false,Except.ok.injEq]
        simp only [Bool.or_eq_true,not_or,Bool.not_eq_true] at hs
        exact ⟨fun h => by subst h; exact ⟨⟨rfl,hs.1⟩,hs.2⟩,fun h => h.1.1⟩

variable {fs} {path : String} {l : Location}

lemma target_put (h : fs.target path = .ok l) (m : Location) (f : File) :
    (fs.put m f).target path = .ok l := by
  rw [target_eq_ok_iff] at h ⊢
  exact ⟨resolve_put m f h.1,h.2⟩

/-- What is read at a place where a file can be written. -/
lemma read_of_target (h : fs.target path = .ok l) :
    fs.read path = match fs.file? l with
      | none => .error .noSuchFile
      | some f => .ok f.bytes := by
  obtain ⟨hr,hd⟩ := (target_eq_ok_iff fs).mp h
  simp only [read,hr,bind,Except.bind,hd]
  cases fs.file? l <;> rfl

lemma read_put (h : fs.target path = .ok l) (f : File) : (fs.put l f).read path = .ok f.bytes := by
  rw [read_of_target (target_put h l f),file?_put_self]

lemma fileAt?_of_target (h : fs.target path = .ok l) : fs.fileAt? path = fs.file? l := by
  obtain ⟨hr,hd⟩ := (target_eq_ok_iff fs).mp h
  simp [fileAt?,hr,hd]

/-- A file that can be read can be written. -/
lemma target_of_read {bytes : Bytes} (h : fs.read path = .ok bytes) :
    ∃ l f, fs.target path = .ok l ∧ fs.file? l = some f ∧ f.bytes = bytes := by
  simp only [read] at h
  cases hr : fs.resolve path with
  | error e => simp [hr,bind,Except.bind] at h
  | ok p =>
    cases p with
    | directory d => simp [hr,bind,Except.bind] at h
    | entry l slash =>
      simp only [hr,bind,Except.bind] at h
      split at h
      · cases h
      · next hd =>
        cases hf : fs.file? l with
        | none => simp [hf] at h
        | some f =>
          simp only [hf] at h
          split at h
          · cases h
          · next hs =>
            refine ⟨l,f,(target_eq_ok_iff fs).mpr ⟨?_,by simpa using hd⟩,hf,by simpa using h⟩
            simpa [hr] using hs

/-- The file at a path, or the one that writing would begin there. -/
def fileOr (fs : FileSystem) (l : Location) (mode : Nat) : File := (fs.file? l).getD ⟨[],mode⟩

lemma extend_of_target (h : fs.target path = .ok l) (mode : Nat) (tail : Bytes → Bytes) :
    fs.extend path mode tail = .ok (fs.put l
      ⟨(fs.fileOr l mode).bytes ++ tail (fs.fileOr l mode).bytes,(fs.fileOr l mode).mode⟩) := by
  simp only [extend,h,bind,Except.bind]
  rfl

lemma extend_of_target_error {e : SystemError} (h : fs.target path = .error e) (mode : Nat)
    (tail : Bytes → Bytes) : fs.extend path mode tail = .error e := by
  simp [extend,h,bind,Except.bind]

end Keyring.FileSystem
