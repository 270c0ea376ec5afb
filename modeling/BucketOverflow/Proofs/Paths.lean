import BucketOverflow.Proofs.Files
import BucketOverflow.Proofs.Text.Lines

/-! Paths as texts. The last name of a path is one step behind the text before it, and another
extension changes nothing but that step. -/
namespace BucketOverflow
open Text Files

variable {dir name ext : List Char} {fs : Files} {path : String} {p : Place}

namespace Path

/-- A name at the end of a path, and the text before it. -/
structure Named (dir name : List Char) : Prop where
  dir : dir = [] ∨ ∃ above, dir = above ++ ['/']
  not_slash : '/' ∉ name
  ne_nil : name ≠ []

/-- A path that does not end in a slash ends in a name. -/
theorem exists_named (hne : path ≠ "") (hslash : endsInSlash path = false) :
    ∃ dir name, Named dir name ∧ path = String.ofList (dir ++ name) := by
  have hpath : path.toList ≠ [] := fun h => hne (String.toList_eq_nil_iff.mp h)
  by_cases hmem : '/' ∈ path.toList.reverse
  · obtain ⟨name, above, hcs, hname⟩ := List.eq_append_cons_of_mem hmem
    have hsplit : path.toList = above.reverse ++ ['/'] ++ name.reverse := by
      rw [← List.reverse_reverse path.toList, hcs]
      simp
    refine ⟨above.reverse ++ ['/'], name.reverse, ⟨.inr ⟨_, rfl⟩, by simpa using hname, ?_⟩, ?_⟩
    · intro hnil
      rw [hnil, List.append_nil] at hsplit
      simp [endsInSlash, hsplit] at hslash
    · rw [← hsplit, String.ofList_toList]
  · refine ⟨[], path.toList, ⟨.inl rfl, by simpa using hmem, hpath⟩, ?_⟩
    rw [List.nil_append, String.ofList_toList]

theorem pathNames_of_named (h : Named dir name) : pathNames (String.ofList (dir ++ name)) =
    pathNames (String.ofList dir) ++ [String.ofList name] := by
  have hname : String.ofList name ≠ "" := by
    simpa [← String.toList_inj] using h.ne_nil
  obtain rfl | ⟨above, rfl⟩ := h.dir
  · simp [pathNames, pathPieces, splitOn_of_notMem h.not_slash, splitOn_nil, hname]
  · have hdir : splitOn '/' (above ++ ['/']) = splitOn '/' above ++ [[]] :=
      splitOn_concat List.not_mem_nil above
    simp [pathNames, pathPieces, splitOn_concat h.not_slash, hdir, hname]

theorem isAbsolute_of_named (h : Named dir name) :
    isAbsolute (String.ofList (dir ++ name)) = isAbsolute (String.ofList dir) := by
  unfold isAbsolute
  rw [String.toList_ofList, String.toList_ofList]
  obtain rfl | ⟨above, rfl⟩ := h.dir
  · obtain ⟨c, cs, rfl⟩ := List.exists_cons_of_ne_nil h.ne_nil
    have hc : c ≠ '/' := fun hc => h.not_slash (hc ▸ List.mem_cons_self)
    simp [hc]
  · cases above <;> rfl

/-- The last name is one step. -/
theorem place_of_named (h : Named dir name) (fs : Files) :
    fs.place (String.ofList (dir ++ name)) =
      step (fs.place (String.ofList dir)) (String.ofList name) := by
  unfold place start
  rw [pathNames_of_named h, isAbsolute_of_named h, List.foldl_append]
  rfl

theorem step_of_ne {here : Place} {name : String} (hdot : name ≠ ".") (hup : name ≠ "..") :
    step here name = here ++ [name] := by
  rw [step, if_neg hdot, if_neg hup]

/-- A file lies under its name; a dot would name a directory. -/
theorem ne_dot_of_names (h : Named dir name) (hnames : Names fs (String.ofList (dir ++ name)) p)
    (hfile : fs.isDirectory p = false) : name ≠ ['.'] := by
  intro hdot
  have hwalk := hnames.locate
  unfold locate at hwalk
  split_ifs at hwalk
  rw [pathNames_of_named h] at hwalk
  have hdir := isDirectory_of_walk hwalk
  have hplace : p = (pathNames (String.ofList dir)).foldl step
      (fs.start (String.ofList (dir ++ name))) := by
    rw [walk_eq hwalk, List.foldl_append, hdot]
    rfl
  rw [← hplace, hfile] at hdir
  cases hdir

/-! Extensions -/

theorem stem_subset (name : List Char) : stem name ⊆ name := by
  unfold stem
  dsimp only
  split_ifs
  · exact List.Subset.refl _
  · exact List.take_subset _ _

theorem named_stem (h : Named dir name) (hext : '/' ∉ ext) :
    Named dir (stem name ++ '.' :: ext) := by
  refine ⟨h.dir, ?_, by simp⟩
  have hstem : '/' ∉ stem name := fun hmem => h.not_slash (stem_subset name hmem)
  simp [hstem, hext]

/-- The tail of a path that ends in a name is that name. -/
theorem trimTail_of_named (h : Named dir name) (hdot : name ≠ ['.']) :
    trimTail (dir ++ name).reverse = (dir ++ name).reverse := by
  obtain ⟨front, last, rfl⟩ := List.eq_nil_or_concat name |>.resolve_left h.ne_nil
  have hlast : last ≠ '/' := fun hc => h.not_slash (by simp [hc])
  have hfront : last = '.' → ∃ front' c, front = front' ++ [c] ∧ c ≠ '/' := by
    rintro rfl
    obtain rfl | ⟨front', c, rfl⟩ := List.eq_nil_or_concat front
    · exact absurd rfl hdot
    · exact ⟨front', c, List.concat_eq_append, fun hc => h.not_slash (by simp [hc])⟩
  have hrev : (dir ++ (front.concat last)).reverse = last :: (front.reverse ++ dir.reverse) := by
    simp
  rw [hrev]
  unfold trimTail
  split
  · rename_i heq
    exact absurd (List.cons.inj heq).1 hlast
  · rename_i heq
    obtain ⟨hdot, htail⟩ := List.cons.inj heq
    obtain ⟨front', c, rfl, hc⟩ := hfront hdot
    simp at htail
    exact absurd htail.1 hc
  · rfl

/-- Another extension changes the last name alone. -/
theorem withExtension_of_named (h : Named dir name) (hdot : name ≠ ['.']) (ext : String) :
    withExtension ext (String.ofList (dir ++ name)) = String.ofList (dir ++
      if name = ['.', '.'] then name else stem name ++ '.' :: ext.toList) := by
  have hslash : '/' ∉ name.reverse := by simpa using h.not_slash
  have hname : (dir ++ name).reverse.takeWhile (· ≠ '/') = name.reverse := by
    rw [List.reverse_append]
    obtain rfl | ⟨above, rfl⟩ := h.dir
    · rw [List.reverse_nil, List.append_nil]
      refine List.takeWhile_eq_self_iff.mpr fun c hc => ?_
      simpa using ne_of_mem_of_not_mem hc hslash
    · rw [List.reverse_concat]
      exact takeWhile_ne hslash _
  unfold withExtension
  simp only [String.toList_ofList, trimTail_of_named h hdot, List.reverse_reverse, hname]
  by_cases hup : name = ['.', '.']
  · simp [hup]
  · simp [hup, hdot, h.ne_nil]

/-- A sibling with another name lies at another place. -/
theorem place_withExtension_ne (hnames : Names fs path p) (hfile : fs.isDirectory p = false)
    (hne : withExtension "json" path ≠ path) : fs.place (withExtension "json" path) ≠ p := by
  have hpath : path ≠ "" := by
    rintro rfl
    cases hnames.locate
  obtain ⟨dir, name, hnamed, rfl⟩ := exists_named hpath hnames.not_slash
  have hdot := ne_dot_of_names hnamed hnames hfile
  rw [withExtension_of_named hnamed hdot] at hne ⊢
  split_ifs at hne ⊢ with hup
  · exact absurd rfl hne
  have hstep {name : List Char} (hdot : name ≠ ['.']) (hup : name ≠ ['.', '.']) :
      step (fs.place (String.ofList dir)) (String.ofList name) =
        fs.place (String.ofList dir) ++ [String.ofList name] :=
    step_of_ne (by simpa [← String.toList_inj] using hdot)
      (by simpa [← String.toList_inj] using hup)
  have hlong {short : List Char} (hlen : short.length < 5) :
      stem name ++ '.' :: "json".toList ≠ short := by
    rintro rfl
    simp at hlen
  rw [← hnames.place, place_of_named hnamed, place_of_named (named_stem hnamed (by decide)),
    hstep hdot hup, hstep (hlong (by decide)) (hlong (by decide))]
  intro heq
  have hlast := List.append_cancel_left heq
  rw [List.singleton_inj, String.ofList_inj] at hlast
  rw [hlast] at hne
  exact hne rfl

end Path
end BucketOverflow
