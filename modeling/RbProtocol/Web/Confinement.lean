import RbProtocol.Library.Paths
import RbProtocol.Web.Serve

/-!
# The files under the root

`rb_web_get_files_root` is the root of the files that the web server serves. `url_decode` puts the
working directory and a slash in front of what it decodes, and `prepare_gzip` opens the result, with
`.gz` behind it or as it is. Nothing looks at the segments of the name.

`confined_iff` says for which names the opened paths are inside of the working directory: those that
come back along the names of the working directory if they go up beyond it.
-/

namespace RbProtocol.Web

open Ascii Library

/-! ## Paths -/

/-- A part of a path between two slashes. -/
def pathSegment (s : Bytes) : Segment Bytes :=
  if s = [] ∨ s = [dot] then .here
  else if s = [dot, dot] then .parent
  else .name s

/-- The segments of a path. -/
def pathSegments (path : Bytes) : List (Segment Bytes) := (path.splitOn slash).map pathSegment

/-- Where a path leads, from the root of the file system. -/
def resolved (path : Bytes) : List Bytes := resolve [] (pathSegments path)

/-- The path is that of a directory, or of something below it. -/
def Inside (directory path : Bytes) : Prop := resolved directory <+: resolved path

instance (directory path : Bytes) : Decidable (Inside directory path) :=
  inferInstanceAs (Decidable (_ <+: _))

/-- Behind a directory, a name that goes up beyond it comes back along the names that it has gone
up. -/
def ComesBack (directory name : Bytes) : Prop :=
  let walk := Walk.ofPath (pathSegments name)
  (resolved directory).drop ((resolved directory).length - walk.ups) <+: walk.names

instance (directory name : Bytes) : Decidable (ComesBack directory name) :=
  inferInstanceAs (Decidable (_ <+: _))

theorem pathSegments_append (directory name : Bytes) :
    pathSegments (directory ++ slash :: name) = pathSegments directory ++ pathSegments name := by
  rw [pathSegments, List.splitOn, List.splitOnP_append_cons _ _ (by simp), List.map_append]
  rfl

/-- **A name behind a directory stays inside** if it comes back. -/
theorem inside_append_iff (directory name : Bytes) :
    Inside directory (directory ++ slash :: name) ↔ ComesBack directory name := by
  rw [Inside, resolved, resolved, pathSegments_append, resolve_append]
  exact isPrefix_resolve_iff _ _

/-! ## The paths that are opened -/

/-- `prepare_gzip` passes the name with the suffix `.gz` to `open`. -/
def TriesGzip (req : HttpRequest) : Prop :=
  let name := cstr req.filename
  req.servingGzip = true ∧ ¬(name.length < 3 ∨ filenameSize ≤ name.length + 4) ∧
    ¬name.drop (name.length - 3) = literal ".gz"

instance : DecidablePred TriesGzip := fun _ => inferInstanceAs (Decidable (_ ∧ _ ∧ _))

/-- The paths that `prepare_gzip` passes to `open`. -/
def openedPaths (files : Bytes → Option File) (req : HttpRequest) : List Bytes :=
  let name := cstr req.filename
  if TriesGzip req then
    (name ++ literal ".gz") :: if (files (name ++ literal ".gz")).isSome then [] else [name]
  else [name]

/-- The file of `prepare_gzip` is the first that `open` finds under these paths. -/
theorem prepareGzip_eq_findSome? (files : Bytes → Option File) (req : HttpRequest) :
    (prepareGzip files req).1 = (openedPaths files req).findSome? files := by
  have hplain (name : Bytes) : [name].findSome? files = files name := by
    cases h : files name <;> simp [h]
  unfold prepareGzip openedPaths TriesGzip
  by_cases hgzip : req.servingGzip = true
  · by_cases hshort : (cstr req.filename).length < 3 ∨ filenameSize ≤ (cstr req.filename).length + 4
    · simp only [hgzip, hshort, not_true, false_and, and_false, if_true, if_false, hplain,
        Bool.not_true, Bool.false_eq_true]
    · by_cases hsuffix : (cstr req.filename).drop ((cstr req.filename).length - 3) = literal ".gz"
      · simp only [hgzip, hshort, hsuffix, not_true, and_false, if_true, if_false, hplain,
          Bool.not_true, Bool.false_eq_true]
      · simp only [hgzip, hshort, hsuffix, not_false_eq_true, and_self, if_true, if_false,
          Bool.not_true, Bool.false_eq_true]
        cases hfile : files (cstr req.filename ++ literal ".gz") <;> simp [hfile]
  · simp [hgzip, hplain]

/-- **Root confinement**: every path that `prepare_gzip` passes to `open` is inside of the working
directory. -/
def Confined (server : WebServer) (files : Bytes → Option File) (req : HttpRequest) : Prop :=
  ∀ path ∈ openedPaths files req, Inside server.workingDirectory path

/-- The name that `url_decode` writes behind the working directory and a slash. -/
def decodedName (server : WebServer) (uri : Bytes) : Bytes :=
  cstr (urlDecodeLoop (filenameSize - (server.workingDirectory ++ [slash]).length - 1)
    (uriFilename uri))

section Request

variable (server : WebServer) (locals : Locals) (s : HeaderState)

/-- The file name of a request. -/
theorem cstr_filename (hdir : 0 ∉ server.workingDirectory) :
    cstr (finishRequest server locals s).filename =
      server.workingDirectory ++ slash :: decodedName server locals.uri := by
  have hdir' : ∀ c ∈ server.workingDirectory ++ [slash], decide (c ≠ 0) = true := by
    intro c hc
    rw [decide_eq_true_iff]
    rintro rfl
    exact (List.mem_append.1 hc).elim hdir (by decide)
  rw [finishRequest, urlDecode, cstr, List.takeWhile_append_of_pos hdir', List.append_assoc]
  rfl

/-- **The opened paths are inside of the working directory** if and only if the decoded name comes
back whenever it goes up beyond it, as it is opened: with the suffix `.gz`, or without. -/
theorem confined_iff (hdir : 0 ∉ server.workingDirectory) (files : Bytes → Option File) :
    let req := finishRequest server locals s
    let name := decodedName server locals.uri
    Confined server files req ↔
      (TriesGzip req → ComesBack server.workingDirectory (name ++ literal ".gz")) ∧
        ((TriesGzip req →
          files (server.workingDirectory ++ slash :: (name ++ literal ".gz")) = none) →
          ComesBack server.workingDirectory name) := by
  intro req name
  have hname : cstr req.filename = server.workingDirectory ++ slash :: name :=
    cstr_filename server locals s hdir
  have hgzip : cstr req.filename ++ literal ".gz" =
      server.workingDirectory ++ slash :: (name ++ literal ".gz") := by
    rw [hname, List.append_assoc, List.cons_append]
  rw [Confined, openedPaths, hgzip, hname]
  by_cases htries : TriesGzip req
  · cases hfile : files (server.workingDirectory ++ slash :: (name ++ literal ".gz")) with
    | none => simp [inside_append_iff, htries]
    | some file => simp [inside_append_iff, htries]
  · simp [inside_append_iff, htries]

end Request

/-- The name `"a/../b.css"`, with escapes, and with the suffix `.gz` first. -/
theorem confined_style : Confined ⟨literal "/data", literal "robot"⟩ (fun _ => none)
    (finishRequest ⟨literal "/data", literal "robot"⟩
      ⟨[], literal "/a/%2E%2e/b.css" ++ [0], literal "GET" ++ [0]⟩
      ⟨⟨[], [], .eof⟩, [], ⟨[], 0, 0, true, [], 0, false⟩, 0⟩) :=
  (confined_iff ⟨literal "/data", literal "robot"⟩ _ _ (by decide) _).2 (by decide +kernel)

/-- The request line `"GET /../x HTTP/1.1"`: `"/data/../x"` is opened. -/
theorem not_confined_parent : ∃ request,
    parseRequest ⟨literal "/data", literal "robot"⟩
      ⟨[.data ⟨literal "GET /../x HTTP/1.1\r\n\r\n", by decide, by decide⟩], .eof⟩
      ⟨[], [], []⟩ ⟨[], 0, 0, false, [], 0, false⟩ 2 = some request ∧
    ¬Confined ⟨literal "/data", literal "robot"⟩ (fun _ => none) request :=
  ⟨⟨literal "/data/../x", 0, 0, false, [], 0, false⟩, by decide +kernel, by
    intro h
    exact absurd (h (literal "/data/../x") (by decide +kernel)) (by decide +kernel)⟩

end RbProtocol.Web
