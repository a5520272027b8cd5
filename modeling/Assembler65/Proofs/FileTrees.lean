import Assembler65.CommandLine.FileTree
import Assembler65.CommandLine.PathName
import Mathlib.Data.List.Basic

/-!
# Files written and files kept

What writing one file does to a tree: the file has the new contents, every other file and all
directories stay as they were (`FileTree.writes_of_write?`), so that every path names what it named
before. The default place of the output is another file than the input
(`PathName.locate?_outputPath_ne`).
-/

set_option autoImplicit false

namespace Assembler65

namespace FileTree

/-- A path leads to a place where a file can be written. -/
def Writable (tree : FileTree) (path : String) : Prop :=
  ∃ location, tree.locate? path = some location ∧ tree.isDirectory location = false

/-- A tree after one file was written. -/
structure Writes (before : FileTree) (location : Location) (contents : ByteArray)
    (after : FileTree) : Prop where
  written : after.files.lookup location = some contents
  others : ∀ other, other ≠ location → after.files.lookup other = before.files.lookup other
  directories : ∀ other, after.isDirectory other = before.isDirectory other

/-! ## Directories -/

theorem isDirectory_iff {tree : FileTree} {location : Location} :
    tree.isDirectory location = true ↔
      location = [] ∨ location ∈ tree.directories ∨
        ∃ other, (other ∈ tree.directories ∨ other ∈ tree.files.map Prod.fst) ∧
          location <+: other ∧ location.length < other.length := by
  simp only [isDirectory, Bool.or_eq_true, List.isEmpty_iff, List.contains_iff_mem, or_assoc,
    List.any_eq_true, List.mem_append, Bool.and_eq_true, List.isPrefixOf_iff_prefix,
    decide_eq_true_eq]

/-- What leads to a directory is a directory. -/
theorem isDirectory_of_above {tree : FileTree} {location above : Location}
    (h : tree.isDirectory location = true) (hleads : above <+: location) :
    tree.isDirectory above = true := by
  rw [isDirectory_iff] at h ⊢
  rcases Nat.lt_or_eq_of_le hleads.length_le with hlt | heq
  · rcases h with rfl | hlisted | ⟨other, hother, hbelow, hlength⟩
    · cases hlt
    · exact .inr (.inr ⟨location, .inl hlisted, hleads, hlt⟩)
    · exact .inr (.inr ⟨other, hother, hleads.trans hbelow, Nat.lt_trans hlt hlength⟩)
  · rw [hleads.eq_of_length heq]
    exact h

/-- A location that components lead to lies in a directory, under the last of them. -/
theorem exists_parent_of_follow {tree : FileTree} {location target : Location}
    {components : List String} (hdirectory : tree.isDirectory location = true)
    (h : tree.follow location components = some target) :
    ∃ parent name, target = parent ++ [name] ∧ tree.isDirectory parent = true ∧
      components.getLast? = some name := by
  fun_induction follow tree location components with
  | case1 => cases h
  | case2 => cases h
  | case3 location name =>
    cases h
    exact ⟨location, name, rfl, hdirectory, rfl⟩
  | case4 => cases h
  | case5 location name rest hrest next hnext ih =>
    rw [Bool.or_eq_true, not_or, Bool.not_eq_true', Bool.not_eq_false] at hnext
    obtain ⟨parent, last, rfl, hparent, hlast⟩ := ih hnext.2 h
    refine ⟨parent, last, rfl, hparent, ?_⟩
    rw [List.getLast?_cons, hlast]
    rfl

/-- Trees with the same directories give a path the same location. -/
theorem locate?_congr {before after : FileTree}
    (h : ∀ location, after.isDirectory location = before.isDirectory location) (path : String) :
    after.locate? path = before.locate? path := by
  have hfollow : ∀ location components,
      after.follow location components = before.follow location components := by
    intro location components
    fun_induction follow after location components with
    | case1 => rfl
    | case2 location name hname => rw [follow, if_pos hname]
    | case3 location name hname => rw [follow, if_neg hname]
    | case4 location name rest hrest next hnext =>
      rw [follow, ← h, if_pos hnext]
      exact hrest
    | case5 location name rest hrest next hnext ih =>
      rw [follow, ← h, if_neg hnext]
      · exact ih
      · exact hrest
  rw [locate?, locate?, hfollow]

/-- The location of a path lies in a directory, under the last component of the path. -/
theorem exists_parent_of_locate? {tree : FileTree} {path : String} {location : Location}
    (h : tree.locate? path = some location) :
    ∃ parent name, location = parent ++ [name] ∧ tree.isDirectory parent = true ∧
      (components path).getLast? = some name ∧ isVoid name = false := by
  rw [locate?, Option.ite_none_left_eq_some, Bool.or_eq_true, not_or] at h
  obtain ⟨⟨-, hvoid⟩, h⟩ := h
  cases hlast : (components path).getLast? with
  | none => simp [hlast] at hvoid
  | some last =>
    have hlast' : isVoid last = false := by simpa [hlast] using hvoid
    obtain ⟨parent, name, rfl, hparent, hname⟩ := exists_parent_of_follow rfl h
    -- The last component is none of those that are passed over.
    obtain ⟨before, hbefore⟩ := List.getLast?_eq_some_iff.1 hlast
    rw [hbefore, List.filter_append, List.filter_cons_of_pos (by rw [hlast']; rfl),
      List.filter_nil, List.getLast?_concat, Option.some.injEq] at hname
    exact ⟨parent, name, rfl, hparent, hname ▸ rfl, hname ▸ hlast'⟩

/-! ## Writing -/

theorem lookup_filter_of_ne {files : List (Location × ByteArray)} {location other : Location}
    (h : other ≠ location) :
    (files.filter fun file => file.1 != location).lookup other = files.lookup other := by
  induction files with
  | nil => rfl
  | cons file rest ih =>
    by_cases hfile : file.1 = location
    · rw [List.filter_cons_of_neg (by simp [hfile]), ih, List.lookup_cons, hfile,
        beq_eq_false_iff_ne.2 h]
    · rw [List.filter_cons_of_pos (by simpa using hfile), List.lookup_cons, List.lookup_cons, ih]

theorem mem_locations_written {files : List (Location × ByteArray)} {location other : Location}
    {contents : ByteArray} :
    other ∈ ((location, contents) :: files.filter fun file => file.1 != location).map Prod.fst ↔
      other = location ∨ other ∈ files.map Prod.fst := by
  simp only [List.map_cons, List.mem_cons, List.mem_map, List.mem_filter, bne_iff_ne, ne_eq]
  constructor
  · rintro (rfl | ⟨file, ⟨hfile, -⟩, rfl⟩)
    · exact .inl rfl
    · exact .inr ⟨file, hfile, rfl⟩
  · rintro (rfl | ⟨file, hfile, rfl⟩)
    · exact .inl rfl
    · by_cases heq : file.1 = location
      · exact .inl heq
      · exact .inr ⟨file, ⟨hfile, heq⟩, rfl⟩

theorem exists_write?_iff {tree : FileTree} {path : String} (contents : ByteArray) :
    (∃ after, tree.write? path contents = some after) ↔ tree.Writable path := by
  simp only [write?, Option.bind_eq_some_iff, Option.ite_none_left_eq_some, Bool.not_eq_true]
  constructor
  · rintro ⟨after, location, hlocation, hdirectory, -⟩
    exact ⟨location, hlocation, hdirectory⟩
  · rintro ⟨location, hlocation, hdirectory⟩
    exact ⟨_, location, hlocation, hdirectory, rfl⟩

/-- Writing a file gives it the new contents and changes nothing else. -/
theorem writes_of_write? {tree after : FileTree} {path : String} {contents : ByteArray}
    (h : tree.write? path contents = some after) :
    ∃ location, tree.locate? path = some location ∧ Writes tree location contents after := by
  simp only [write?, Option.bind_eq_some_iff, Option.ite_none_left_eq_some] at h
  obtain ⟨location, hlocation, -, hafter⟩ := h
  obtain rfl := Option.some.inj hafter
  refine ⟨location, hlocation, ?_, ?_, ?_⟩
  · exact List.lookup_cons_self
  · intro other hother
    rw [List.lookup_cons, beq_eq_false_iff_ne.2 hother]
    exact lookup_filter_of_ne hother
  · -- The file lies in a directory, so that it makes no new ones, and no file is gone.
    obtain ⟨parent, name, heq, hparent, -⟩ := exists_parent_of_locate? hlocation
    intro other
    rw [Bool.eq_iff_iff]
    constructor
    · rw [isDirectory_iff]
      rintro (hroot | hlisted | ⟨below, hbelow, hleads, hlength⟩)
      · exact isDirectory_iff.2 (.inl hroot)
      · exact isDirectory_iff.2 (.inr (.inl hlisted))
      · rw [mem_locations_written] at hbelow
        rcases hbelow with hlisted | rfl | hfile
        · exact isDirectory_iff.2 (.inr (.inr ⟨below, .inl hlisted, hleads, hlength⟩))
        · rw [heq] at hleads hlength
          refine isDirectory_of_above hparent ((List.prefix_concat_iff.1 hleads).resolve_left ?_)
          rintro rfl
          exact Nat.lt_irrefl _ hlength
        · exact isDirectory_iff.2 (.inr (.inr ⟨below, .inr hfile, hleads, hlength⟩))
    · rw [isDirectory_iff, isDirectory_iff]
      simp only [mem_locations_written]
      rintro (hroot | hlisted | ⟨below, hbelow, hleads, hlength⟩)
      · exact .inl hroot
      · exact .inr (.inl hlisted)
      · exact .inr (.inr ⟨below, hbelow.imp_right .inr, hleads, hlength⟩)

/-- A path reads as before unless it names the file written. -/
theorem Writes.read?_eq {before after : FileTree} {location : Location} {contents : ByteArray}
    (h : Writes before location contents after) (path : String) :
    after.read? path =
      if before.locate? path = some location then some contents else before.read? path := by
  rw [read?, read?, locate?_congr h.directories]
  cases before.locate? path with
  | none => rfl
  | some other =>
    by_cases hother : other = location
    · rw [if_pos (congrArg some hother), Option.bind_some, hother, h.written]
    · rw [if_neg (fun heq => hother (Option.some.inj heq)), Option.bind_some, Option.bind_some,
        h.others other hother]

end FileTree

/-! ## The place of the output -/

/-- The last stretch between slashes is the end of the text, behind a slash or all of it. -/
theorem exists_eq_append_of_splitOn {cs last : List Char}
    (h : (cs.splitOn '/').getLast? = some last) :
    ∃ front, cs = front ++ last ∧ '/' ∉ last ∧ (front = [] ∨ front.getLast? = some '/') := by
  by_cases hslash : '/' ∈ cs.reverse
  · -- The first slash from behind is the last one.
    obtain ⟨name, front, hreverse, hname⟩ := List.eq_append_cons_of_mem hslash
    have hcs : cs = front.reverse ++ '/' :: name.reverse := by
      rw [← List.reverse_reverse cs, hreverse]
      simp
    have hname' : '/' ∉ name.reverse := fun hmem => hname (List.mem_reverse.1 hmem)
    rw [hcs, List.splitOn_append_cons_self, List.splitOn_eq_singleton hname',
      List.getLast?_concat] at h
    cases h
    exact ⟨front.reverse ++ ['/'], by rw [hcs]; simp, hname', .inr List.getLast?_concat⟩
  · rw [List.mem_reverse] at hslash
    rw [List.splitOn_eq_singleton hslash] at h
    cases h
    exact ⟨[], rfl, hslash, .inl rfl⟩

theorem FileTree.exists_eq_append_of_components {path name : String}
    (h : (components path).getLast? = some name) :
    ∃ front, path.toList = front ++ name.toList ∧ '/' ∉ name.toList ∧
      (front = [] ∨ front.getLast? = some '/') := by
  rw [components, List.getLast?_map, Option.map_eq_some_iff] at h
  obtain ⟨last, hlast, rfl⟩ := h
  rw [String.toList_ofList]
  exact exists_eq_append_of_splitOn hlast

namespace PathName

/-- A path that ends in a proper component has nothing to be cut off its end. -/
theorem trimmedReverse_eq {front name : List Char} (hslash : '/' ∉ name) (hne : name ≠ [])
    (hdot : name ≠ ['.']) :
    trimmedReverse (name.reverse ++ front.reverse) = name.reverse ++ front.reverse := by
  obtain ⟨before, c, rfl⟩ := (List.eq_nil_or_concat' name).resolve_left hne
  rw [List.reverse_concat, List.cons_append, trimmedReverse.eq_def]
  split
  case h_1 rest heq =>
    rw [(List.cons.inj heq).1] at hslash
    simp at hslash
  case h_2 rest heq =>
    -- A point comes last and a slash before it, so the point is all of the component.
    obtain ⟨rfl, hnext⟩ := List.cons.inj heq
    rcases List.eq_nil_or_concat' before with rfl | ⟨before, d, rfl⟩
    · exact absurd rfl hdot
    · rw [List.reverse_concat, List.cons_append] at hnext
      rw [(List.cons.inj hnext).1] at hslash
      simp at hslash
  case h_3 => rfl

/-- The last component of a path is its file name. -/
theorem extension?_append {front name : List Char} (hslash : '/' ∉ name) (hne : name ≠ [])
    (hdot : name ≠ ['.']) (hfront : front = [] ∨ front.getLast? = some '/')
    {extension : List Char} (h : extension? (front ++ name) = some extension) :
    (stemAndExtension name).2 = some extension := by
  have hname : ∀ c ∈ name.reverse, (c != '/') = true := by
    intro c hc
    rw [bne_iff_ne]
    rintro rfl
    exact hslash (List.mem_reverse.1 hc)
  have htake : (name.reverse ++ front.reverse).takeWhile (· != '/') = name.reverse := by
    rw [List.takeWhile_append_of_pos hname]
    rcases hfront with rfl | hfront
    · exact List.append_nil _
    · obtain ⟨before, rfl⟩ := List.getLast?_eq_some_iff.1 hfront
      rw [List.reverse_concat, List.takeWhile_cons_of_neg (by decide), List.append_nil]
  rw [extension?, split?, List.reverse_append, trimmedReverse_eq hslash hne hdot] at h
  simp only [htake, List.reverse_reverse] at h
  split at h
  · cases h
  · exact h

/-- A file name ends in its extension, behind a point. -/
theorem exists_eq_append_of_stemAndExtension {name extension : List Char}
    (h : (stemAndExtension name).2 = some extension) :
    ∃ stem, name = stem ++ '.' :: extension := by
  rw [stemAndExtension] at h
  split at h
  case h_1 => cases h
  case h_2 => cases h
  case h_3 c stem _ hdrop =>
    cases h
    have hpoint : c = '.' := by
      have hstop := List.head?_dropWhile_not (· != '.') name.reverse
      rw [hdrop] at hstop
      simpa using hstop
    have hsplit := List.takeWhile_append_dropWhile (p := (· != '.')) (l := name.reverse)
    rw [hdrop, hpoint] at hsplit
    refine ⟨stem.reverse, ?_⟩
    have hname := congrArg List.reverse hsplit
    rw [List.reverse_reverse, List.reverse_append, List.reverse_cons, List.append_assoc,
      List.singleton_append] at hname
    exact hname.symm

/-- A path with an extension set ends in it, or is left as it is. -/
theorem setExtension_cases (extension path : List Char) :
    (∃ stem, setExtension extension path = stem ++ extension) ∨
      setExtension extension path = path := by
  rw [setExtension]
  cases split? path with
  | none => exact .inr rfl
  | some parts =>
    obtain ⟨directory, name⟩ := parts
    refine .inl ⟨directory ++ (stemAndExtension name).1 ++ ['.'], ?_⟩
    simp

/-- The default place of the output is not that of the input. -/
theorem locate?_outputPath_ne {tree : FileTree} {input path : String} {location : Location}
    (hpath : outputPath input = .ok path) (hinput : tree.locate? input = some location) :
    tree.locate? path ≠ some location := by
  intro hsame
  obtain ⟨parent, name, rfl, -, hname, hvoid⟩ := FileTree.exists_parent_of_locate? hinput
  obtain ⟨parent', name', heq, -, hname', -⟩ := FileTree.exists_parent_of_locate? hsame
  obtain rfl : name = name' := by simpa using congrArg List.getLast? heq
  obtain ⟨front, hfront, hslash, hdivided⟩ := FileTree.exists_eq_append_of_components hname
  obtain ⟨front', hfront', -⟩ := FileTree.exists_eq_append_of_components hname'
  simp only [outputPath] at hpath
  split at hpath
  case isFalse => cases hpath
  case isTrue hextension =>
    have hne : name.toList ≠ [] := by
      intro hnil
      rw [String.toList_eq_nil_iff.1 hnil] at hvoid
      cases hvoid
    have hdot : name.toList ≠ ['.'] := by
      intro hpoint
      rw [← String.ofList_toList (s := name), hpoint] at hvoid
      cases hvoid
    rw [hfront, beq_iff_eq] at hextension
    obtain ⟨stem, hstem⟩ := exists_eq_append_of_stemAndExtension
      (extension?_append hslash hne hdot hdivided hextension)
    -- The input ends in its extension, and without it in a point.
    have hinput' : input.toList = front ++ stem ++ ['.'] ++ sourceExtension := by
      rw [hfront, hstem]
      simp
    have hcut : input.toList.take (input.toList.length - sourceExtension.length) =
        front ++ stem ++ ['.'] := by
      rw [hinput', List.length_append, Nat.add_sub_cancel, List.take_left]
    have hlast : path.toList.getLast? = some 'm' := by
      rw [hfront', hstem]
      simp [sourceExtension]
    rw [← Except.ok.inj hpath, String.toList_ofList, hcut] at hlast
    rcases setExtension_cases imageExtension (front ++ stem ++ ['.']) with ⟨more, hset⟩ | hset
    · rw [hset] at hlast
      simp [imageExtension] at hlast
    · rw [hset] at hlast
      simp at hlast

end PathName

end Assembler65
