import Mla.Entries.Block
import Mla.Names.Escape

/-!
# Entry names as Unix paths

The rules on a name are checked on its bytes, split at each slash. What a path is made of is
told by its components, in which empty parts and dots have been dropped.
-/

namespace Mla

open Io

def slash : UInt8 := 47

/-- `.` -/
def dot : Bytes := [46]

/-- `..` -/
def dotDot : Bytes := [46, 46]

/-! ## Paths -/

/-- The components that `std::path::Path` has on Unix. -/
inductive Component where
  | rootDir
  | curDir
  | parentDir
  | normal (component : Bytes)
  deriving DecidableEq, Repr

abbrev PathBuf := Bytes

namespace PathBuf

def parseSingleComponent (part : Bytes) : Option Component :=
  if part = [] ∨ part = dot then none
  else if part = dotDot then some .parentDir
  else some (.normal part)

/-- The parts behind the root or a leading dot. -/
def bodyComponents (path : PathBuf) : List Component :=
  (path.splitOn slash).filterMap parseSingleComponent

/-- A leading dot is the only one that is kept. -/
def components (path : PathBuf) : List Component :=
  if path.head? = some slash then .rootDir :: bodyComponents path
  else if (path.splitOn slash).head? = some dot then .curDir :: bodyComponents path
  else bodyComponents path

/-- `Path::join`: an absolute path replaces the directory. -/
def join (dir path : PathBuf) : PathBuf :=
  if path.head? = some slash then path
  else if dir = [] ∨ dir.getLast? = some slash then dir ++ path
  else dir ++ slash :: path

theorem bodyComponents_nil : bodyComponents [] = [] := rfl

theorem bodyComponents_append_slash (dir path : PathBuf) :
    bodyComponents (dir ++ slash :: path) = bodyComponents dir ++ bodyComponents path := by
  rw [bodyComponents, List.splitOn_append_cons_self, List.filterMap_append, bodyComponents,
    bodyComponents]

theorem components_append_slash {dir : PathBuf} (path : PathBuf) (hdir : dir ≠ []) :
    components (dir ++ slash :: path) = components dir ++ bodyComponents path := by
  have hhead : (dir ++ slash :: path).head? = dir.head? := List.head?_append_of_ne_nil dir hdir
  have hpart : ((dir ++ slash :: path).splitOn slash).head? = (dir.splitOn slash).head? := by
    rw [List.splitOn_append_cons_self, List.head?_append_of_ne_nil _ (List.splitOn_ne_nil _ _)]
  unfold components
  rw [hhead, hpart, bodyComponents_append_slash]
  split
  · rfl
  · split <;> rfl

/-- A path that is not absolute and does not begin with a dot adds its parts to a directory. -/
theorem components_join (dir : PathBuf) {path : PathBuf} (hroot : path.head? ≠ some slash)
    (hdot : (path.splitOn slash).head? ≠ some dot) :
    components (join dir path) = components dir ++ bodyComponents path := by
  rw [join, if_neg hroot]
  by_cases hnil : dir = []
  · rw [if_pos (.inl hnil), hnil, List.nil_append, components, if_neg hroot, if_neg hdot]
    rfl
  by_cases hlast : dir.getLast? = some slash
  · rw [if_pos (.inr hlast)]
    obtain ⟨start, rfl⟩ := List.getLast?_eq_some_iff.mp hlast
    rw [List.append_assoc, List.singleton_append]
    by_cases hstart : start = []
    · subst hstart
      have hslash : components [slash] = [.rootDir] := rfl
      rw [List.nil_append, List.nil_append, hslash, components, if_pos List.head?_cons]
      exact congrArg _ (bodyComponents_append_slash [] path)
    · rw [components_append_slash _ hstart, components_append_slash _ hstart, bodyComponents_nil,
        List.append_nil]
  · rw [if_neg (not_or.mpr ⟨hnil, hlast⟩), components_append_slash path hnil]

end PathBuf

/-! ## The path of a name -/

def isInvalidOsIndepComponent (component : Bytes) : Bool :=
  component = [] ∨ 0 ∈ component ∨ component = dot ∨ component = dotDot

def checkOsIndepPathRules (bytes : Bytes) : Except EntryNameError Unit :=
  if bytes.head? = some slash then .error .forbiddenPathTraversalComponent
  else if (bytes.splitOn slash).any isInvalidOsIndepComponent then
    .error .invalidPathComponentContent
  else .ok ()

def toNormalComponentOsstr : Component → Except EntryNameError Bytes
  | .normal component => if component = [] then .error .invalidPathComponentContent else .ok component
  | _ => .error .forbiddenPathTraversalComponent

/-- `ENTRY_NAME_PATHBUF_ESCAPED_STRING_ALLOWED_BYTES`. -/
def entryNamePathbufEscapedStringAllowedBytes : Bytes :=
  ascii "ABCDEFGHIJKLMNOPQRSTUVWXYZabcdefghijklmnopqrstuvwxyz0123456789.-_/".toList

/-- `ENTRY_NAME_RAW_CONTENT_ALLOWED_BYTES`. -/
def entryNameRawContentAllowedBytes : Bytes :=
  ascii "ABCDEFGHIJKLMNOPQRSTUVWXYZabcdefghijklmnopqrstuvwxyz0123456789.-_".toList

namespace EntryName

/-- The bytes of the string. -/
def rawContentToEscapedString (name : EntryName) : Bytes :=
  mlaPercentEscape name.name entryNameRawContentAllowedBytes

/-- On Unix the path has the bytes of the name. -/
def toPathbuf (name : EntryName) : Except EntryNameError PathBuf := do
  checkOsIndepPathRules name.name
  pure name.name

/-- The bytes of the string. -/
def toPathbufEscapedString (name : EntryName) : Except EntryNameError Bytes := do
  let pathbuf ← name.toPathbuf
  let components ← (PathBuf.components pathbuf).mapM toNormalComponentOsstr
  pure (mlaPercentEscape ([slash].intercalate components) entryNamePathbufEscapedStringAllowedBytes)

end EntryName

/-! ## Accepted names -/

/-- A part of a name that stays one component of the path. -/
def IsNormalComponent (part : Bytes) : Prop :=
  part ≠ [] ∧ 0 ∉ part ∧ part ≠ dot ∧ part ≠ dotDot

theorem isInvalidOsIndepComponent_eq_false {part : Bytes} :
    isInvalidOsIndepComponent part = false ↔ IsNormalComponent part := by
  simp [isInvalidOsIndepComponent, IsNormalComponent]

theorem IsNormalComponent.parseSingleComponent {part : Bytes} (h : IsNormalComponent part) :
    PathBuf.parseSingleComponent part = some (.normal part) := by
  rw [PathBuf.parseSingleComponent, if_neg (not_or.mpr ⟨h.1, h.2.2.1⟩), if_neg h.2.2.2]

theorem checkOsIndepPathRules_eq_ok {bytes : Bytes} :
    checkOsIndepPathRules bytes = .ok () ↔ ∀ c ∈ bytes.splitOn slash, IsNormalComponent c := by
  unfold checkOsIndepPathRules
  by_cases hroot : bytes.head? = some slash
  · rw [if_pos hroot]
    obtain ⟨rest, rfl⟩ := List.head?_eq_some_iff.mp hroot
    have hempty : [] ∈ (slash :: rest).splitOn slash := by
      rw [← List.nil_append (slash :: rest), List.splitOn_append_cons_self]
      exact List.mem_append_left _ (by simp)
    exact ⟨nofun, fun h => absurd rfl (h [] hempty).1⟩
  · rw [if_neg hroot]
    simp only [← isInvalidOsIndepComponent_eq_false]
    by_cases hinvalid : (bytes.splitOn slash).any isInvalidOsIndepComponent
    · rw [if_pos hinvalid]
      obtain ⟨c, hc, hinvalid⟩ := List.any_eq_true.mp hinvalid
      exact ⟨nofun, fun h => absurd (h c hc) (by simp [hinvalid])⟩
    · rw [if_neg hinvalid]
      simp only [List.any_eq_true, not_exists, not_and, Bool.not_eq_true] at hinvalid
      exact ⟨fun _ => hinvalid, fun _ => rfl⟩

section Accepted

variable {bytes : Bytes} (h : ∀ c ∈ bytes.splitOn slash, IsNormalComponent c)
include h

theorem PathBuf.bodyComponents_of_normal :
    bodyComponents bytes = (bytes.splitOn slash).map .normal := by
  have hparse : ∀ l : List Bytes, (∀ c ∈ l, IsNormalComponent c) →
      l.filterMap parseSingleComponent = l.map .normal := by
    intro l hl
    induction l with
    | nil => rfl
    | cons c l ih =>
        rw [List.filterMap_cons, (hl c List.mem_cons_self).parseSingleComponent, List.map_cons,
          ih fun d hd => hl d (List.mem_cons_of_mem _ hd)]
  exact hparse _ h

theorem head?_ne_slash_of_normal : bytes.head? ≠ some slash := by
  intro hroot
  have hok := checkOsIndepPathRules_eq_ok.mpr h
  rw [checkOsIndepPathRules, if_pos hroot] at hok
  cases hok

theorem head?_splitOn_ne_dot_of_normal : (bytes.splitOn slash).head? ≠ some dot :=
  fun hdot => (h dot (List.mem_of_head? hdot)).2.2.1 rfl

theorem PathBuf.components_of_normal :
    components bytes = (bytes.splitOn slash).map .normal := by
  rw [components, if_neg (head?_ne_slash_of_normal h), if_neg (head?_splitOn_ne_dot_of_normal h),
    bodyComponents_of_normal h]

theorem mapM_toNormalComponentOsstr :
    (PathBuf.components bytes).mapM toNormalComponentOsstr = .ok (bytes.splitOn slash) := by
  have hmap : ∀ l : List Bytes, (∀ c ∈ l, IsNormalComponent c) →
      (l.map .normal).mapM toNormalComponentOsstr = .ok l := by
    intro l hl
    induction l with
    | nil => rfl
    | cons c l ih =>
        have hc : toNormalComponentOsstr (.normal c) = .ok c := if_neg (hl c List.mem_cons_self).1
        rw [List.map_cons, List.mapM_cons, hc, ih fun d hd => hl d (List.mem_cons_of_mem _ hd)]
        rfl
  rw [PathBuf.components_of_normal h]
  exact hmap _ h

end Accepted

namespace EntryName

theorem toPathbuf_eq_ok {name : EntryName} {path : PathBuf} :
    name.toPathbuf = .ok path ↔
      path = name.name ∧ ∀ c ∈ name.name.splitOn slash, IsNormalComponent c := by
  rw [← checkOsIndepPathRules_eq_ok, toPathbuf]
  cases hcheck : checkOsIndepPathRules name.name with
  | error e => exact ⟨nofun, fun h => nomatch h.2⟩
  | ok u => exact ⟨fun h => ⟨(Except.ok.inj h).symm, rfl⟩, fun h => h.1 ▸ rfl⟩

theorem toPathbufEscapedString_of_normal {name : EntryName}
    (h : ∀ c ∈ name.name.splitOn slash, IsNormalComponent c) :
    name.toPathbufEscapedString =
      .ok (mlaPercentEscape name.name entryNamePathbufEscapedStringAllowedBytes) := by
  rw [toPathbufEscapedString, toPathbuf_eq_ok.mpr ⟨rfl, h⟩]
  change (PathBuf.components name.name).mapM toNormalComponentOsstr >>= _ = _
  rw [mapM_toNormalComponentOsstr h]
  change Except.ok _ = _
  rw [List.intercalate_splitOn]

/-- What is not escaped is ASCII, and does not start an escape. -/
theorem allowedBytes_plain :
    ∀ b ∈ entryNamePathbufEscapedStringAllowedBytes, b ≠ percent ∧ b < 128 := by
  decide +kernel

/-- The view of a name as a path accepts the names whose parts are all components of their
own, keeps these and adds nothing else to a directory; the string it is escaped to is ASCII
and unescapes to the name. -/
theorem toPathbuf_faithful (name : EntryName) :
    ((∃ path, name.toPathbuf = .ok path) ↔
        ∀ c ∈ name.name.splitOn slash, IsNormalComponent c) ∧
      ∀ path, name.toPathbuf = .ok path →
        PathBuf.components path = (name.name.splitOn slash).map .normal ∧
        (∀ dir, PathBuf.components (PathBuf.join dir path) =
          PathBuf.components dir ++ (name.name.splitOn slash).map .normal) ∧
        (∀ (other : EntryName) (path' : PathBuf), other.toPathbuf = .ok path' →
          PathBuf.components path' = PathBuf.components path → other = name) ∧
        ∃ s, name.toPathbufEscapedString = .ok s ∧ (∀ b ∈ s, b < 128) ∧
          mlaPercentUnescape s entryNamePathbufEscapedStringAllowedBytes = some name.name := by
  refine ⟨⟨fun ⟨_, h⟩ => (toPathbuf_eq_ok.mp h).2, fun h => ⟨_, toPathbuf_eq_ok.mpr ⟨rfl, h⟩⟩⟩, ?_⟩
  intro path hpath
  obtain ⟨rfl, h⟩ := toPathbuf_eq_ok.mp hpath
  refine ⟨PathBuf.components_of_normal h, fun dir => ?_, ?_, _, toPathbufEscapedString_of_normal h,
    ?_, mlaPercentUnescape_escape (fun h => (allowedBytes_plain _ h).1 rfl) _⟩
  · rw [PathBuf.components_join dir (head?_ne_slash_of_normal h) (head?_splitOn_ne_dot_of_normal h),
      PathBuf.bodyComponents_of_normal h]
  · intro other path' hpath' hcomponents
    obtain ⟨rfl, h'⟩ := toPathbuf_eq_ok.mp hpath'
    rw [PathBuf.components_of_normal h, PathBuf.components_of_normal h'] at hcomponents
    have hinj : Function.Injective Component.normal := fun _ _ h => Component.normal.inj h
    have hparts := List.map_injective_iff.mpr hinj hcomponents
    have hbytes : other.name = name.name :=
      (List.intercalate_splitOn slash).symm.trans
        ((congrArg [slash].intercalate hparts).trans (List.intercalate_splitOn slash))
    cases other
    cases name
    exact EntryName.mk.injEq .. ▸ hbytes
  · exact lt_of_mem_mlaPercentEscape (fun b hb => (allowedBytes_plain b hb).2) _

end EntryName

end Mla
