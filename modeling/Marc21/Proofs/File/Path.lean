import Marc21.Proofs.File.Tree

/-!
Where paths lead. A path to a file ends in its name, and so does the path of a file beside it in the name that
this one was given (`fileName?_sibling`). So the two are different files (`sibling_ne`).
-/

namespace Marc21

namespace Path

/-! ## What stands between slashes -/

section

variable {cs ds part : List Char}

theorem components_cons (c : Char) (cs : List Char) : components (c :: cs) =
    if c = '/' then [] :: components cs
    else match components cs with
      | first :: rest => (c :: first) :: rest
      | [] => [[c]] := rfl

theorem components_ne_nil (cs : List Char) : components cs ≠ [] := by
  cases cs with
  | nil => exact List.cons_ne_nil _ _
  | cons c cs =>
    rw [components_cons]
    split
    · exact List.cons_ne_nil _ _
    · split <;> exact List.cons_ne_nil _ _

theorem components_slash : components ('/' :: cs) = [] :: components cs := by
  rw [components_cons, if_pos rfl]

/-- What is no slash goes to the front of the first component. -/
theorem components_cons_of_ne {c : Char} (h : c ≠ '/') (cs : List Char) : ∃ first rest,
    components cs = first :: rest ∧ components (c :: cs) = (c :: first) :: rest := by
  obtain ⟨first, rest, hparts⟩ := List.exists_cons_of_ne_nil (components_ne_nil cs)
  exact ⟨first, rest, hparts, by rw [components_cons, if_neg h, hparts]⟩

theorem components_append (cs ds : List Char) :
    components (cs ++ '/' :: ds) = components cs ++ components ds := by
  induction cs with
  | nil => exact components_slash
  | cons c cs ih =>
    by_cases hc : c = '/'
    · rw [hc, List.cons_append, components_slash, components_slash, ih, List.cons_append]
    · obtain ⟨first, rest, hparts, hcons⟩ := components_cons_of_ne hc cs
      obtain ⟨first', rest', hparts', hcons'⟩ := components_cons_of_ne hc (cs ++ '/' :: ds)
      rw [ih, hparts, List.cons_append] at hparts'
      obtain ⟨rfl, rfl⟩ := List.cons.inj hparts'
      rw [List.cons_append, hcons', hcons, List.cons_append]

theorem components_of_not_mem (h : '/' ∉ cs) : components cs = [cs] := by
  induction cs with
  | nil => rfl
  | cons c cs ih =>
    obtain ⟨hc, hcs⟩ := List.ne_and_not_mem_of_not_mem_cons h
    obtain ⟨first, rest, hparts, hcons⟩ := components_cons_of_ne hc.symm cs
    rw [ih hcs] at hparts
    cases hparts
    exact hcons

theorem slash_not_mem (h : part ∈ components cs) : '/' ∉ part := by
  induction cs generalizing part with
  | nil =>
    rw [List.mem_singleton.1 h]
    exact List.not_mem_nil
  | cons c cs ih =>
    by_cases hc : c = '/'
    · rw [hc, components_slash] at h
      rcases List.mem_cons.1 h with rfl | h
      · exact List.not_mem_nil
      · exact ih h
    · obtain ⟨first, rest, hparts, hcons⟩ := components_cons_of_ne hc cs
      rw [hparts] at ih
      rw [hcons] at h
      rcases List.mem_cons.1 h with rfl | h
      · rw [List.mem_cons, not_or]
        exact ⟨Ne.symm hc, ih List.mem_cons_self⟩
      · exact ih (List.mem_cons_of_mem _ h)

end

/-! ## The last step -/

section

variable {path name : String}

theorem of_mem_steps (h : name ∈ steps path) : name ≠ "" ∧ '/' ∉ name.toList := by
  obtain ⟨part, hpart, rfl⟩ := List.mem_map.1 h
  obtain ⟨hmem, hne⟩ := List.mem_filter.1 hpart
  rw [String.toList_ofList]
  refine ⟨fun hempty => of_decide_eq_true hne ?_, slash_not_mem hmem⟩
  rw [← String.toList_ofList (l := part), hempty]
  rfl

/-- A path without slashes is a single step. -/
theorem steps_of_not_mem (hslash : '/' ∉ path.toList) (hne : path ≠ "") : steps path = [path] := by
  rw [steps, components_of_not_mem hslash, List.filter_cons_of_pos (by simpa using hne)]
  simp

/-- What is put beside a file of the top folder is there as well. -/
theorem sibling_of_not_mem (hslash : '/' ∉ path.toList) (name : String) : sibling path name = name := by
  have hfolder : (trimmed [path.toList]).dropLast = [] := by
    by_cases h : path.toList = [] ∨ path.toList = ['.']
    · rcases h with h | h <;> rw [h] <;> rfl
    · rw [trimmed, List.reverse_singleton, List.dropWhile_cons_of_neg (by simpa using h)]
      rfl
  rw [sibling, components_of_not_mem hslash, hfolder]
  exact String.intercalate_singleton

/-- A file that is put beside another one has its name at the end of its path. -/
theorem getLast?_steps_sibling (hne : name ≠ "") (hslash : '/' ∉ name.toList) :
    (steps (sibling path name)).getLast? = some name := by
  obtain ⟨front, hfront⟩ : ∃ front, components (sibling path name).toList = front ++ [name.toList] := by
    rw [sibling]
    generalize (trimmed (trimmed (components path.toList)).dropLast).map String.ofList = folder
    by_cases hfolder : folder = []
    · refine ⟨[], ?_⟩
      rw [hfolder, List.nil_append, String.intercalate_singleton, components_of_not_mem hslash]
      rfl
    · refine ⟨components ("/".intercalate folder).toList, ?_⟩
      rw [String.intercalate_append_of_ne_nil hfolder (List.cons_ne_nil _ _), String.intercalate_singleton,
        String.toList_append, String.toList_append, List.append_assoc]
      change components ((String.intercalate "/" folder).toList ++ '/' :: name.toList) = _
      rw [components_append, components_of_not_mem hslash]
  have hkept : name.toList ≠ [] := fun hnil => hne (String.toList_inj.1 (by rw [hnil]; rfl))
  rw [steps, hfront, List.filter_append, List.filter_cons_of_pos (by simpa using hkept)]
  simp

theorem mem_steps_of_fileName? (h : fileName? path = some name) : name ∈ steps path :=
  List.mem_of_mem_filter (List.mem_of_getLast? (Option.filter_eq_some_iff.1 h).1)

/-- A name that could not be taken for dots is the name of the file. -/
theorem fileName?_sibling (hslash : '/' ∉ name.toList) (hlong : 2 < name.length) :
    fileName? (sibling path name) = some name := by
  have hne (dots : String) (hdots : dots.length ≤ 2) : name ≠ dots := by
    rintro rfl
    omega
  have hlast : (steps (sibling path name)).getLast? = some name :=
    getLast?_steps_sibling (hne "" (by decide)) hslash
  obtain ⟨front, hsteps⟩ := List.getLast?_eq_some_iff.1 hlast
  rw [fileName?, moves, hsteps, List.filter_append,
    List.filter_cons_of_pos (by simpa using hne "." (by decide))]
  simp [hne ".." (by decide)]

/-- A path that does not end in a dot ends in the name of its file. -/
theorem getLast?_steps_of_fileName? {last : String} (hname : fileName? path = some name)
    (hlast : (steps path).getLast? = some last) (hdot : last ≠ ".") : last = name ∧ name ≠ ".." := by
  obtain ⟨front, hsteps⟩ := List.getLast?_eq_some_iff.1 hlast
  rw [fileName?, moves, hsteps, List.filter_append, List.filter_cons_of_pos (by simpa using hdot)] at hname
  simp only [List.filter_nil, List.getLast?_append, List.getLast?_singleton, Option.some_or] at hname
  obtain ⟨heq, hup⟩ := Option.filter_eq_some_iff.1 hname
  obtain rfl := Option.some.inj heq
  exact ⟨rfl, by simpa using hup⟩

end

end Path

/-! ## The place of a file -/

namespace FileTree

section

variable {t : FileTree} {path name : String} {id other : FileId} {place : Location}

/-- The last step goes on from a folder. -/
theorem enter_of_locate (h : t.locate path = .ok place) :
    Path.steps path = [] ∧ place = [] ∨ ∃ before last, (Path.steps path).getLast? = some last ∧
      t.node? before = some .folder ∧ t.enter before last = .ok place := by
  unfold locate at h
  split at h
  · cases h
  · split at h
    · cases h
    · split at h
      · cases h
      · rcases List.eq_nil_or_concat (Path.steps path) with hnil | ⟨init, last, hconcat⟩
        · rw [hnil] at h
          cases h
          exact .inl ⟨hnil, rfl⟩
        · rw [List.concat_eq_append] at hconcat
          rw [hconcat, List.foldlM_append] at h
          cases hinit : init.foldlM t.enter [] with
          | error failure =>
            rw [hinit] at h
            cases h
          | ok before =>
            rw [hinit] at h
            have henter : t.enter before last = .ok place := by
              cases hlast : t.enter before last with
              | error failure => simp [bind, Except.bind, List.foldlM_cons, hlast] at h
              | ok after => simpa [bind, Except.bind, pure, Except.pure, List.foldlM_cons, hlast] using h
            refine .inr ⟨before, last, by rw [hconcat, List.getLast?_concat], ?_, henter⟩
            unfold enter at henter
            split at henter
            · cases henter
            · cases henter
            · next hfolder => exact hfolder

theorem enter_name {before : Location} (h : t.enter before name = .ok place) (hdot : name ≠ ".")
    (hup : name ≠ "..") : place = name :: before := by
  unfold enter at h
  split at h
  · cases h
  · cases h
  · rw [if_neg hdot, if_neg hup] at h
    split at h
    · cases h
    · exact (Except.ok.inj h).symm

/-- A name that could not be taken for dots is a place in the top folder, unless it is too long. -/
theorem locate_of_not_mem (t : FileTree) (hslash : '/' ∉ path.toList) (hnul : '\x00' ∉ path.toList)
    (hlong : 2 < path.length) (hlimit : path.utf8ByteSize < pathLimit) :
    t.locate path = if 255 < path.utf8ByteSize then .error nameTooLong else .ok [path] := by
  have hne (dots : String) (hdots : dots.length ≤ 2) : path ≠ dots := by
    rintro rfl
    omega
  rw [locate, if_neg (by simpa using hnul), if_neg (Nat.not_le.2 hlimit), if_neg (hne "" (by decide)),
    Path.steps_of_not_mem hslash (hne "" (by decide)), List.foldlM_cons, enter]
  simp only [node?, if_true, if_neg (hne "." (by decide)), if_neg (hne ".." (by decide))]
  split <;> rfl

/-- The path of a file leads to a place with the name of the file. -/
theorem head?_of_find (h : t.find path = .ok (.file id)) (hname : Path.fileName? path = some name) :
    ∃ place, t.node? place = some (.file id) ∧ place.head? = some name := by
  obtain ⟨_, place, hlocate, hnode⟩ := find_eq_file.1 h
  refine ⟨place, hnode, ?_⟩
  rcases enter_of_locate hlocate with ⟨_, rfl⟩ | ⟨before, last, hlast, hfolder, henter⟩
  · cases hnode
  · have hdot : last ≠ "." := by
      rintro rfl
      rw [enter, hfolder] at henter
      cases henter
      rw [hfolder] at hnode
      cases hnode
    obtain ⟨rfl, hup⟩ := Path.getLast?_steps_of_fileName? hname hlast hdot
    rw [enter_name henter hdot hup]
    rfl

/-- A file that no other place holds, and one beside it, are not the same. -/
theorem Sole.sibling_ne (hsole : t.Sole id) (h : t.find path = .ok (.file id))
    (hname : Path.fileName? path = some name) {suffix : String} (hslash : '/' ∉ suffix.toList)
    (hlong : 1 < suffix.length) (hbeside : t.find (Path.sibling path (name ++ suffix)) = .ok (.file other)) :
    other ≠ id := by
  rintro rfl
  obtain ⟨hempty, hclean⟩ := Path.of_mem_steps (Path.mem_steps_of_fileName? hname)
  have hlength : 2 < (name ++ suffix).length := by
    have : name.length ≠ 0 := fun hzero => hempty (String.length_eq_zero_iff.1 hzero)
    rw [String.length_append]
    omega
  have hnamed : Path.fileName? (Path.sibling path (name ++ suffix)) = some (name ++ suffix) := by
    apply Path.fileName?_sibling
    · rw [String.toList_append, List.mem_append, not_or]
      exact ⟨hclean, hslash⟩
    · exact hlength
  obtain ⟨place, hnode, hhead⟩ := head?_of_find h hname
  obtain ⟨taken, htaken, hhead'⟩ := head?_of_find hbeside hnamed
  rw [hsole _ _ htaken hnode, hhead] at hhead'
  have hsame := congrArg String.length (Option.some.inj hhead')
  rw [String.length_append] at hsame
  omega

/-- So it is with one that is made there. -/
theorem Sole.obtained_ne {u : FileTree} (hsole : t.Sole id) (ht : t.WellFormed)
    (h : t.find path = .ok (.file id)) (hname : Path.fileName? path = some name) {suffix : String}
    (hslash : '/' ∉ suffix.toList) (hlong : 1 < suffix.length)
    (hobtain : t.obtain (Path.sibling path (name ++ suffix)) = .ok (other, u)) : other ≠ id := by
  obtain ⟨hwants, place, hlocate, ⟨hnode, _⟩ | ⟨_, hnew, _⟩⟩ := obtain_eq_ok hobtain
  · exact hsole.sibling_ne h hname hslash hlong (find_eq_file.2 ⟨hwants, place, hlocate, hnode⟩)
  · obtain ⟨_, _, _, hthere⟩ := find_eq_file.1 h
    exact hnew ▸ (Nat.ne_of_lt (ht.lt_size hthere)).symm

end

end FileTree

end Marc21
