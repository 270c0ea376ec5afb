import Mathlib.Data.List.Basic
import Mathlib.Tactic
import BucketOverflow.Files

/-! What work on a tree of files leaves alone. Writing a file changes one place, making directories
only adds nodes, and a path leads to the same place after either. -/
namespace BucketOverflow.Files

variable {fs fs' fs'' : Files} {p q : Place} {n : Node} {path : String} {content : ByteArray}
  {a b : List Place}

/-! Nodes -/

theorem lookup_filter_ne (nodes : List (Place × Node)) (h : q ≠ p) :
    (nodes.filter fun e => e.1 ≠ p).lookup q = nodes.lookup q := by
  induction nodes with
  | nil => rfl
  | cons e nodes ih =>
    obtain ⟨r, m⟩ := e
    by_cases hr : r = p
    · have hq : (q == r) = false := by simpa [hr] using h
      rw [List.filter_cons_of_neg (by simpa using hr), ih, List.lookup_cons, hq]
    · rw [List.filter_cons_of_pos (by simpa using hr), List.lookup_cons, List.lookup_cons, ih]

theorem node?_put (fs : Files) (hp : p ≠ []) (n : Node) (q : Place) :
    (fs.put p n).node? q = if q = p then some n else fs.node? q := by
  unfold node? put
  by_cases hq : q = p
  · subst hq
    simp [hp]
  · have hqp : (q == p) = false := by simpa using hq
    simp only [if_neg hq, List.lookup_cons, hqp, lookup_filter_ne _ hq]

theorem isDirectory_iff : fs.isDirectory p = true ↔ fs.node? p = some .directory := by
  unfold isDirectory
  split <;> simp_all

/-! Growing -/

/-- Work on files that may add nodes and give files at the touched places another content, and
leaves everything else alone. -/
structure Grows (touched : List Place) (fs fs' : Files) : Prop where
  working : fs'.working = fs.working
  node? : ∀ q n, q ∉ touched → fs.node? q = some n → fs'.node? q = some n
  isDirectory : ∀ q, fs.isDirectory q = true → fs'.isDirectory q = true

theorem grows_refl (fs : Files) : Grows [] fs fs := ⟨rfl, fun _ _ _ h => h, fun _ h => h⟩

theorem Grows.trans (h : Grows a fs fs') (h' : Grows b fs' fs'') : Grows (a ++ b) fs fs'' where
  working := h'.working.trans h.working
  node? q n hq hn := by
    rw [List.mem_append, not_or] at hq
    exact h'.node? q n hq.2 (h.node? q n hq.1 hn)
  isDirectory q hq := h'.isDirectory q (h.isDirectory q hq)

theorem Grows.mono (h : Grows a fs fs') (hab : a ⊆ b) : Grows b fs fs' :=
  ⟨h.working, fun q n hq => h.node? q n fun hqa => hq (hab hqa), h.isDirectory⟩

theorem grows_put_file (hp : p ≠ []) (hd : fs.isDirectory p = false) (content : ByteArray) :
    Grows [p] fs (fs.put p (.file content)) where
  working := rfl
  node? q n hq hn := by
    rw [node?_put fs hp, if_neg (by simpa using hq)]
    exact hn
  isDirectory q hq := by
    have hne : q ≠ p := by
      rintro rfl
      rw [hq] at hd
      cases hd
    rw [isDirectory_iff] at hq ⊢
    rw [node?_put fs hp, if_neg hne, hq]

theorem grows_put_directory (hp : fs.node? p = none) : Grows [] fs (fs.put p .directory) := by
  have hne : p ≠ [] := by
    rintro rfl
    cases hp
  have hkeep {q : Place} {n : Node} (hn : fs.node? q = some n) :
      (fs.put p .directory).node? q = some n := by
    rw [node?_put fs hne, if_neg, hn]
    rintro rfl
    rw [hn] at hp
    cases hp
  exact ⟨rfl, fun _ _ _ => hkeep, fun q hq => isDirectory_iff.mpr (hkeep (isDirectory_iff.mp hq))⟩

/-! Paths -/

/-- The place that a path names if it names one. -/
def place (fs : Files) (path : String) : Place := (pathNames path).foldl step (fs.start path)

theorem Grows.place (h : Grows a fs fs') (path : String) : fs'.place path = fs.place path := by
  unfold Files.place start
  rw [h.working]

theorem walk_eq {here : Place} {names : List String} (h : fs.walk here names = .ok p) :
    p = names.foldl step here := by
  induction names generalizing here with
  | nil => exact (Except.ok.inj h).symm
  | cons name names ih =>
    unfold walk at h
    split at h
    · cases h
    · cases h
    · exact ih h

theorem Grows.walk {here : Place} {names : List String} (hg : Grows a fs fs')
    (h : fs.walk here names = .ok p) : fs'.walk here names = .ok p := by
  induction names generalizing here with
  | nil => exact h
  | cons name names ih =>
    unfold Files.walk at h ⊢
    split at h
    · cases h
    · cases h
    · rename_i hnode
      rw [isDirectory_iff.mp (hg.isDirectory here (isDirectory_iff.mpr hnode))]
      exact ih h

/-- All but the last of the names lead to a directory. -/
theorem isDirectory_of_walk {here : Place} {names : List String} {name : String}
    (h : fs.walk here (names ++ [name]) = .ok p) :
    fs.isDirectory (names.foldl step here) = true := by
  induction names generalizing here with
  | nil =>
    rw [List.nil_append, walk] at h
    split at h
    · cases h
    · cases h
    · rename_i hnode
      exact isDirectory_iff.mpr hnode
  | cons first names ih =>
    rw [List.cons_append, walk] at h
    split at h
    · cases h
    · cases h
    · exact ih h

theorem locate_eq (h : fs.locate path = .ok p) : p = fs.place path := by
  unfold locate at h
  split_ifs at h
  exact walk_eq h

/-- A path that leads somewhere goes on leading there. -/
theorem Grows.locate (hg : Grows a fs fs') (h : fs.locate path = .ok p) :
    fs'.locate path = .ok p := by
  unfold Files.locate start at h ⊢
  split_ifs at h ⊢
  · exact hg.walk h
  · rw [hg.working]
    exact hg.walk h

/-! Reading and writing -/

/-- A path that leads to a file of its own. -/
structure Names (fs : Files) (path : String) (p : Place) : Prop where
  locate : fs.locate path = .ok p
  not_slash : endsInSlash path = false

theorem Names.place (h : Names fs path p) : fs.place path = p := (locate_eq h.locate).symm

theorem Grows.names (hg : Grows a fs fs') (h : Names fs path p) : Names fs' path p :=
  ⟨hg.locate h.locate, h.not_slash⟩

theorem Names.read (h : Names fs path p) (hn : fs.node? p = some (.file content)) :
    fs.read path = .ok content := by
  simp only [Files.read, h.locate, bind, Except.bind, hn, h.not_slash]
  rfl

/-- A path that can be read leads to a file. -/
theorem names_of_read (h : fs.read path = .ok content) :
    Names fs path (fs.place path) ∧ fs.node? (fs.place path) = some (.file content) := by
  unfold Files.read at h
  cases hl : fs.locate path with
  | error e => simp [hl, bind, Except.bind] at h
  | ok p =>
    simp only [hl, bind, Except.bind] at h
    obtain rfl := locate_eq hl
    split at h
    · cases h
    · cases h
    · rename_i held hnode
      split_ifs at h with hslash
      obtain rfl : held = content := Except.ok.inj h
      exact ⟨⟨hl, Bool.not_eq_true _ |>.mp hslash⟩, hnode⟩

/-- A file reads as before when other places are touched. -/
theorem Grows.read (hg : Grows a fs fs') (h : fs.read path = .ok content)
    (hp : fs.place path ∉ a) : fs'.read path = .ok content := by
  obtain ⟨hnames, hnode⟩ := names_of_read h
  exact (hg.names hnames).read (hg.node? _ _ hp hnode)

/-- Where a file was created, and the files after that. -/
structure Created (fs : Files) (path : String) (p : Place) (fs' : Files) : Prop where
  names : Names fs path p
  not_root : p ≠ []
  not_directory : fs.isDirectory p = false
  files_eq : fs' = fs.put p (.file .empty)

theorem created_of_create (h : fs.create path = .ok (p, fs')) : Created fs path p fs' := by
  unfold create at h
  cases hl : fs.locate path with
  | error e => simp [hl, bind, Except.bind] at h
  | ok r =>
    simp only [hl, bind, Except.bind] at h
    split_ifs at h with hbad
    obtain ⟨rfl, rfl⟩ := Prod.mk.inj (Except.ok.inj h)
    rw [Bool.or_eq_true, not_or, Bool.not_eq_true, Bool.not_eq_true] at hbad
    refine ⟨⟨hl, hbad.1⟩, ?_, hbad.2, rfl⟩
    rintro rfl
    simp [isDirectory, node?] at hbad

theorem Created.grows (h : Created fs path p fs') : Grows [p] fs fs' :=
  h.files_eq ▸ grows_put_file h.not_root h.not_directory _

theorem Created.node? (h : Created fs path p fs') : fs'.node? p = some (.file .empty) := by
  rw [h.files_eq, node?_put fs h.not_root, if_pos rfl]

theorem not_isDirectory_of_file (h : fs.node? p = some (.file content)) :
    fs.isDirectory p = false := by
  rw [isDirectory, h]

/-- A file that was written. -/
structure Wrote (fs : Files) (path : String) (content : ByteArray) (fs' : Files) : Prop where
  names : Names fs' path (fs.place path)
  node? : fs'.node? (fs.place path) = some (.file content)
  grows : Grows [fs.place path] fs fs'

theorem wrote_of_write (h : fs.write path content = .ok fs') : Wrote fs path content fs' := by
  unfold write at h
  cases hc : fs.create path with
  | error e => simp [hc, bind, Except.bind] at h
  | ok r =>
    obtain ⟨p, fs₁⟩ := r
    have hcreated := created_of_create hc
    obtain rfl : fs₁.put p (.file content) = fs' := by
      simpa [hc, bind, Except.bind, pure, Except.pure] using h
    have hplace := hcreated.names.place
    have hput := grows_put_file hcreated.not_root (not_isDirectory_of_file hcreated.node?) content
    have hgrows : Grows [p] fs (fs₁.put p (.file content)) :=
      (hcreated.grows.trans hput).mono (by simp)
    rw [← hplace] at hgrows ⊢
    refine ⟨?_, ?_, hgrows⟩
    · exact hgrows.names (hplace ▸ hcreated.names)
    · rw [node?_put _ (hplace ▸ hcreated.not_root), if_pos rfl]

theorem Wrote.read (h : Wrote fs path content fs') : fs'.read path = .ok content :=
  h.names.read h.node?

/-! Directories -/

theorem grows_makeDirectory (h : fs.makeDirectory path = .ok fs') : Grows [] fs fs' := by
  unfold makeDirectory at h
  cases hl : fs.locate path with
  | error e => simp [hl, bind, Except.bind] at h
  | ok p =>
    simp only [hl, bind, Except.bind] at h
    split at h
    · cases h
    · rename_i hnone
      obtain rfl : fs.put p .directory = fs' := Except.ok.inj h
      exact grows_put_directory hnone

theorem grows_makeDirectories {fuel : ℕ} (h : makeDirectories fuel path fs = .ok fs') :
    Grows [] fs fs' := by
  induction fuel generalizing path fs fs' with
  | zero => cases h
  | succ fuel ih =>
    unfold makeDirectories at h
    split_ifs at h
    · obtain rfl := Except.ok.inj h
      exact grows_refl fs
    dsimp only at h
    split at h
    · rename_i hmake
      obtain rfl := Except.ok.inj h
      exact grows_makeDirectory hmake
    split_ifs at h with hmissing
    · split at h
      · cases h
      rename_i above _
      cases habove : makeDirectories fuel above fs with
      | error e => simp [habove, bind, Except.bind] at h
      | ok fs₁ =>
        have hfirst := ih habove
        simp only [habove, bind, Except.bind] at h
        split at h
        · rename_i hmake
          obtain rfl := Except.ok.inj h
          exact hfirst.trans (grows_makeDirectory hmake)
        · split_ifs at h
          obtain rfl := Except.ok.inj h
          exact hfirst
    · obtain rfl := Except.ok.inj h
      exact grows_refl fs

theorem grows_makeParents (h : makeParents path fs = .ok fs') : Grows [] fs fs' := by
  unfold makeParents at h
  split at h
  · obtain rfl := Except.ok.inj h
    exact grows_refl fs
  · exact grows_makeDirectories h

/-! Texts -/

/-- The text of a file that holds the bytes of a text. -/
theorem readText_of_read {text : String} (h : fs.read path = .ok text.toUTF8) :
    fs.readText path = .ok text := by
  have hdecode : String.fromUTF8? text.toUTF8 = some text := by
    unfold String.fromUTF8?
    rw [String.toUTF8_eq_toByteArray, dif_pos text.isValidUTF8]
    rfl
  simp only [Files.readText, h, bind, Except.bind, hdecode]
  rfl

end BucketOverflow.Files
