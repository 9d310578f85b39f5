import MegaTree.Text.Fields
import Mathlib.Data.List.Basic
import Mathlib.Logic.Function.Basic

/-!
# Requests to the server

The request loop of `server.cpp`: a request has a path and a query string, the server answers it and
may serve one more tree.  An access to a vector at an index that is out of range is a fault.

* `getParams_eq` : the parameters of a query string.
* `serveNewTree_cases` : what `/serve_new_tree` does with a name.
* `handleRequest_correct` : the requests that it answers as it should.
* `Served.handleRequests` : every tree that is listed has a storage, in any run.
-/

namespace MegaTree.Server

open Fields

abbrev Text := List Char

/-- What goes wrong: a string made of a null pointer, or an index that is out of range. -/
inductive Fault where
  | nullString
  | outOfRange
deriving DecidableEq

/-- `vec[i]` -/
def element (vec : List Text) (i : ℕ) : Except Fault Text :=
  match vec[i]? with
  | some item => .ok item
  | none => .error .outOfRange

/-! ### Parameters -/

abbrev Params := Text → Option Text

/-- One round of the loop of `getParams`. -/
def addParam (params : Params) (param : Text) : Except Fault Params := do
  let paramVec := split '=' param
  if paramVec.length = 2 then
    let name ← element paramVec 0
    let value ← element paramVec 1
    return Function.update params name (some value)
  else return params

def getParams (queryString : Option Text) : Except Fault Params :=
  match queryString with
  | none => .error .nullString
  | some query => (split '&' query).foldlM addParam fun _ => none

/-! ### The server -/

/-- `trees`, and the storages by their trees: what `openStorage` was called with. -/
structure State where
  trees : List Text
  storageMap : Text → Option Text

/-- What is sent: the content of a page, the cube of `emitBox`, a file of a storage, the dump of the
environment, or nothing. -/
inductive Reply where
  | html (content : Text)
  | box
  | file (storage filename : Text)
  | dump
  | nothing
deriving DecidableEq

def emitPong : Reply := .html "files pong".toList

def emitTrees (trees : List Text) : Reply := .html ([','].intercalate trees)

def emitFile (server : State) (tree filename : Text) : Reply :=
  match server.storageMap tree with
  | none => .nothing
  | some storage => .file storage filename

/-- `trees.push_back(new_tree_name)` and the storage of the new tree. -/
def State.serve (server : State) (newTreeName : Text) : State where
  trees := server.trees ++ [newTreeName]
  storageMap :=
    Function.update server.storageMap newTreeName (some ("hbase://wgsc3/".toList ++ newTreeName))

/-- The branch for `/serve_new_tree`. -/
def serveNewTree (server : State) (queryString : Option Text) : Except Fault (State × Reply) := do
  let params ← getParams queryString
  match params "new_tree_name".toList with
  | some newTreeName =>
    let nameSplit := split '_' newTreeName
    -- the second part is only looked at if the first one is right
    if (← element nameSplit 0) = "proc".toList then
      if (← element nameSplit 1) = "tahoe".toList then
        return (server.serve newTreeName, .html newTreeName)
    return (server, .nothing)
  | none => return (server, .nothing)

/-- One round of the loop of `main`. -/
def handleRequest (server : State) (pathString queryString : Option Text) :
    Except Fault (State × Reply) :=
  let requestPath := pathString.getD []
  if requestPath = "/ping".toList then .ok (server, emitPong)
  else if requestPath = "/box".toList then .ok (server, .box)
  else if requestPath = "/serve_new_tree".toList then serveNewTree server queryString
  else if requestPath = "/supported_trees".toList then .ok (server, emitTrees server.trees)
  else
    match requestPath with
    | '/' :: path =>
      -- without a second slash the whole path is the tree and the file
      if '/' ∈ path then
        let tree := path.takeWhile (· ≠ '/')
        .ok (server, emitFile server tree (path.drop (tree.length + 1)))
      else .ok (server, emitFile server path path)
    | _ => .ok (server, .dump)

/-! ### What a query string says -/

/-- A parameter with a name and a value: `name=value`, or `name=value=`, where only the second form
can have an empty value. -/
def IsParam (param name value : Text) : Prop :=
  param.splitOn '=' = [name, value] ∧ value ≠ [] ∨ param.splitOn '=' = [name, value, []]

/-- The last parameter with this name has the value. -/
def HasValue (query name value : Text) : Prop :=
  IsLast (fun param value => IsParam param name value) (query.splitOn '&') value

theorem isParam_iff {param name value : Text} :
    IsParam param name value ↔ split '=' param = [name, value] := split_pair_iff.symm

theorem not_isParam_nil (name value : Text) : ¬IsParam [] name value := by
  simp [isParam_iff]

theorem IsParam.unique {param name value name' value' : Text} (h : IsParam param name value)
    (h' : IsParam param name' value') : name = name' ∧ value = value' := by
  rw [isParam_iff] at h h'
  simpa using h.symm.trans h'

theorem HasValue.unique {query name value value' : Text} (h : HasValue query name value)
    (h' : HasValue query name value') : value = value' :=
  IsLast.unique (fun _ _ _ hv hv' => (hv.unique hv').2) h h'

/-- A parameter is put into the map if it has a name and a value; nothing else is looked at. -/
theorem addParam_cases (params : Params) (param : Text) :
    (∃ name value, IsParam param name value ∧
      addParam params param = .ok (Function.update params name (some value))) ∨
    (∀ name value, ¬IsParam param name value) ∧ addParam params param = .ok params := by
  by_cases hlen : (split '=' param).length = 2
  · obtain ⟨name, value, hsplit⟩ := List.length_eq_two.1 hlen
    refine .inl ⟨name, value, isParam_iff.2 hsplit, ?_⟩
    simp only [addParam, hsplit]
    rfl
  · refine .inr ⟨fun name value h => hlen ?_, ?_⟩
    · rw [isParam_iff.1 h]
      rfl
    · simp only [addParam, if_neg hlen]
      rfl

theorem foldlM_addParam (paramsVec : List Text) :
    ∃ params, paramsVec.foldlM addParam (fun _ => none) = .ok params ∧
      ∀ name value, params name = some value ↔
        IsLast (fun param value => IsParam param name value) paramsVec value := by
  induction paramsVec using List.reverseRecOn with
  | nil => exact ⟨_, rfl, fun name value => iff_of_false (by simp) not_isLast_nil⟩
  | append_singleton paramsVec param ih =>
    obtain ⟨params, hfold, hparams⟩ := ih
    have hconcat : (paramsVec ++ [param]).foldlM addParam (fun _ => none) =
        addParam params param := by
      rw [List.foldlM_append, hfold]
      exact bind_pure (addParam params param)
    rw [hconcat]
    rcases addParam_cases params param with ⟨name, value, hparam, hadd⟩ | ⟨hparam, hadd⟩
    · refine ⟨Function.update params name (some value), hadd, ?_⟩
      intro name' value'
      rw [isLast_concat]
      by_cases hname : name' = name
      · subst hname
        rw [Function.update_self, Option.some.injEq]
        constructor
        · rintro rfl
          exact .inl hparam
        · rintro (h | ⟨h, -⟩)
          · exact (hparam.unique h).2
          · exact absurd hparam (h value)
      · have hother : ∀ value, ¬IsParam param name' value := fun value h =>
          hname (h.unique hparam).1
        rw [Function.update_of_ne hname, hparams, or_iff_right (hother value'),
          and_iff_right hother]
    · refine ⟨params, hadd, fun name value => ?_⟩
      rw [isLast_concat, hparams, or_iff_right (hparam name value), and_iff_right (hparam name)]

/-- The parameters of a query string: the last value of each name. -/
theorem getParams_eq (query : Text) :
    ∃ params, getParams (some query) = .ok params ∧
      ∀ name value, params name = some value ↔ HasValue query name value := by
  obtain ⟨params, hparams, hvalue⟩ := foldlM_addParam (split '&' query)
  refine ⟨params, hparams, fun name value => ?_⟩
  rw [hvalue, split_eq, isLast_dropEnd (not_isParam_nil name)]
  rfl

/-! ### Serving a new tree -/

/-- A name that has at least two parts, of which the first is `proc` and the second `tahoe`. -/
def IsProcTahoe (name : Text) : Prop :=
  ∃ rest, name.splitOn '_' = "proc".toList :: "tahoe".toList :: rest

/-- The names whose parts are looked for in vain. -/
def shortNames : List Text := [[], "proc".toList, "proc_".toList]

theorem split_of_mem_shortNames {name : Text} (h : name ∈ shortNames) :
    split '_' name = [] ∨ split '_' name = ["proc".toList] := by
  simp only [shortNames, List.mem_cons, List.not_mem_nil, or_false] at h
  rcases h with rfl | rfl | rfl
  · exact .inl split_nil
  · exact .inr (split_of_not_mem (by decide) (by decide))
  · have hproc : '_' ∉ "proc".toList := by decide
    exact .inr ((split_append_cons hproc []).trans (by rw [split_nil]))

/-- The branch, by the fields of the name. -/
theorem serveNewTree_eq (server : State) {query name : Text}
    (h : HasValue query "new_tree_name".toList name) :
    serveNewTree server (some query) =
      match split '_' name with
      | [] => .error .outOfRange
      | [item] => if item = "proc".toList then .error .outOfRange else .ok (server, .nothing)
      | item :: item' :: _ =>
        if item = "proc".toList ∧ item' = "tahoe".toList then
          .ok (server.serve name, .html name)
        else .ok (server, .nothing) := by
  obtain ⟨params, hparams, hvalue⟩ := getParams_eq query
  have hname := (hvalue _ _).2 h
  simp only [serveNewTree, hparams]
  change (match params "new_tree_name".toList with
    | some newTreeName => _
    | none => _) = _
  rw [hname]
  dsimp only
  rcases split '_' name with _ | ⟨item, _ | ⟨item', items⟩⟩
  · rfl
  · by_cases hitem : item = "proc".toList
    · subst hitem
      rfl
    · exact (if_neg hitem).trans (if_neg hitem).symm
  · by_cases hitem : item = "proc".toList
    · subst hitem
      by_cases hitem' : item' = "tahoe".toList
      · subst hitem'
        rfl
      · exact (if_neg hitem').trans (if_neg fun h => hitem' h.2).symm
    · exact (if_neg hitem).trans (if_neg fun h => hitem h.1).symm

/-- Without the parameter nothing happens. -/
theorem serveNewTree_none (server : State) {query : Text}
    (h : ∀ name, ¬HasValue query "new_tree_name".toList name) :
    serveNewTree server (some query) = .ok (server, .nothing) := by
  obtain ⟨params, hparams, hvalue⟩ := getParams_eq query
  have hname : params "new_tree_name".toList = none :=
    Option.eq_none_iff_forall_ne_some.2 fun name hname => h name ((hvalue _ _).1 hname)
  simp only [serveNewTree, hparams]
  change (match params "new_tree_name".toList with
    | some newTreeName => _
    | none => _) = _
  rw [hname]
  rfl

/-- What the branch does with a name. -/
theorem serveNewTree_cases (server : State) {query name : Text}
    (h : HasValue query "new_tree_name".toList name) :
    (name ∈ shortNames ∧ serveNewTree server (some query) = .error .outOfRange) ∨
    (name ∉ shortNames ∧ IsProcTahoe name ∧
      serveNewTree server (some query) = .ok (server.serve name, .html name)) ∨
    (name ∉ shortNames ∧ ¬IsProcTahoe name ∧
      serveNewTree server (some query) = .ok (server, .nothing)) := by
  rw [serveNewTree_eq server h]
  rcases split_cases '_' name with
    ⟨rfl, hsplit⟩ | ⟨item, hsplit, hitem, hparts⟩ | ⟨item, item', items, parts, hsplit, hparts⟩
  · exact .inl ⟨by simp [shortNames], by rw [hsplit]⟩
  · have hnot : ¬IsProcTahoe name := by
      rintro ⟨rest, hrest⟩
      rcases hparts with hparts | hparts
      · simp [hparts] at hrest
      · simp [hparts] at hrest
    rw [hsplit]
    by_cases hproc : item = "proc".toList
    · subst hproc
      refine .inl ⟨?_, if_pos rfl⟩
      rcases hitem with rfl | rfl
      · simp [shortNames]
      · simp [shortNames]
    · refine .inr (.inr ⟨fun hmem => ?_, hnot, if_neg hproc⟩)
      rcases split_of_mem_shortNames hmem with h | h
      · simp [hsplit] at h
      · exact hproc (by simpa [hsplit] using h)
  · have hlong : name ∉ shortNames := by
      intro hmem
      rcases split_of_mem_shortNames hmem with h | h
      · simp [hsplit] at h
      · simp [hsplit] at h
    have hiff : IsProcTahoe name ↔ item = "proc".toList ∧ item' = "tahoe".toList := by
      rw [IsProcTahoe, hparts]
      constructor
      · rintro ⟨rest, hrest⟩
        simp only [List.cons.injEq] at hrest
        exact ⟨hrest.1, hrest.2.1⟩
      · rintro ⟨rfl, rfl⟩
        exact ⟨parts, rfl⟩
    rw [hsplit]
    by_cases hitems : item = "proc".toList ∧ item' = "tahoe".toList
    · exact .inr (.inl ⟨hlong, hiff.2 hitems, if_pos hitems⟩)
    · exact .inr (.inr ⟨hlong, fun h => hitems (hiff.1 h), if_neg hitems⟩)

/-! ### Requests -/

/-- The tree that a request asks for. -/
def AsksFor (pathString queryString : Option Text) (name : Text) : Prop :=
  pathString = some "/serve_new_tree".toList ∧
    ∃ query, queryString = some query ∧ HasValue query "new_tree_name".toList name

theorem AsksFor.unique {pathString queryString : Option Text} {name name' : Text}
    (h : AsksFor pathString queryString name) (h' : AsksFor pathString queryString name') :
    name = name' := by
  obtain ⟨-, query, rfl, hvalue⟩ := h
  obtain ⟨-, query', hquery, hvalue'⟩ := h'
  cases hquery
  exact hvalue.unique hvalue'

theorem handleRequest_of_asksFor (server : State) {pathString queryString : Option Text}
    {name : Text} (h : AsksFor pathString queryString name) :
    (name ∈ shortNames ∧ handleRequest server pathString queryString = .error .outOfRange) ∨
    (name ∉ shortNames ∧ IsProcTahoe name ∧
      handleRequest server pathString queryString = .ok (server.serve name, .html name)) ∨
    (name ∉ shortNames ∧ ¬IsProcTahoe name ∧
      handleRequest server pathString queryString = .ok (server, .nothing)) := by
  obtain ⟨rfl, query, rfl, hvalue⟩ := h
  exact serveNewTree_cases server hvalue

/-- All other requests leave the trees as they are, or have no query string. -/
theorem handleRequest_of_not_asksFor (server : State) {pathString queryString : Option Text}
    (h : ∀ name, ¬AsksFor pathString queryString name) :
    handleRequest server pathString queryString = .error .nullString ∨
      ∃ reply, handleRequest server pathString queryString = .ok (server, reply) := by
  unfold handleRequest
  dsimp only
  split_ifs with hping hbox hserve hsupported
  · exact .inr ⟨_, rfl⟩
  · exact .inr ⟨_, rfl⟩
  · cases queryString with
    | none => exact .inl rfl
    | some query =>
      have hpath : pathString = some "/serve_new_tree".toList := by
        cases pathString with
        | none => simp at hserve
        | some path => exact congrArg some hserve
      exact .inr ⟨.nothing, serveNewTree_none server fun name hvalue =>
        h name ⟨hpath, query, rfl, hvalue⟩⟩
  · exact .inr ⟨_, rfl⟩
  · split
    · split_ifs with hslash
      · exact .inr ⟨_, rfl⟩
      · exact .inr ⟨_, rfl⟩
    · exact .inr ⟨_, rfl⟩

/-- No index is out of range, and a tree is added to the served ones if the request asks for it and
its name is right, and only then. -/
def IsCorrect (server : State) (pathString queryString : Option Text) : Prop :=
  handleRequest server pathString queryString ≠ .error .outOfRange ∧
    ∀ server' reply, handleRequest server pathString queryString = .ok (server', reply) →
      (∀ name, AsksFor pathString queryString name → IsProcTahoe name →
        server'.trees = server.trees ++ [name]) ∧
      ((∀ name, AsksFor pathString queryString name → ¬IsProcTahoe name) →
        server'.trees = server.trees)

/-- **A request is answered correctly** exactly if it does not ask for a tree with one of the three
short names. -/
theorem handleRequest_correct (server : State) (pathString queryString : Option Text) :
    IsCorrect server pathString queryString ↔
      ¬∃ name ∈ shortNames, AsksFor pathString queryString name := by
  by_cases hasks : ∃ name, AsksFor pathString queryString name
  · obtain ⟨name, hname⟩ := hasks
    have hshort : (∃ name ∈ shortNames, AsksFor pathString queryString name) ↔
        name ∈ shortNames := by
      constructor
      · rintro ⟨name', hmem, hname'⟩
        rwa [hname.unique hname']
      · exact fun hmem => ⟨name, hmem, hname⟩
    rw [hshort, IsCorrect]
    rcases handleRequest_of_asksFor server hname with
      ⟨hmem, h⟩ | ⟨hmem, hproc, h⟩ | ⟨hmem, hproc, h⟩
    · exact iff_of_false (fun hcorrect => hcorrect.1 h) (not_not.2 hmem)
    · rw [h]
      refine iff_of_true ⟨by simp, ?_⟩ hmem
      rintro server' reply ⟨⟩
      refine ⟨fun name' hname' _ => by rw [hname.unique hname']; rfl, fun hnot => ?_⟩
      exact absurd hproc (hnot name hname)
    · rw [h]
      refine iff_of_true ⟨by simp, ?_⟩ hmem
      rintro server' reply ⟨⟩
      refine ⟨fun name' hname' hproc' => ?_, fun _ => rfl⟩
      exact absurd (hname.unique hname' ▸ hproc') hproc
  · have hnot : ∀ name, ¬AsksFor pathString queryString name := not_exists.1 hasks
    refine iff_of_true ?_ fun ⟨name, _, hname⟩ => hnot name hname
    rcases handleRequest_of_not_asksFor server hnot with h | ⟨reply, h⟩
    · simp [IsCorrect, h]
    · rw [IsCorrect, h]
      refine ⟨by simp, ?_⟩
      rintro server' reply' ⟨⟩
      exact ⟨fun name hname => absurd hname (hnot name), fun _ => rfl⟩

theorem not_handleRequest_correct :
    ¬IsCorrect ⟨[], fun _ => none⟩ (some "/serve_new_tree".toList)
      (some "new_tree_name=proc".toList) := by
  have hasks : AsksFor (some "/serve_new_tree".toList) (some "new_tree_name=proc".toList)
      "proc".toList :=
    ⟨rfl, _, rfl, [], "new_tree_name=proc".toList, [], by decide, .inl ⟨by decide, by decide⟩,
      by simp⟩
  rcases handleRequest_of_asksFor ⟨[], fun _ => none⟩ hasks with ⟨-, h⟩ | ⟨hmem, -⟩ | ⟨hmem, -⟩
  · exact fun hcorrect => hcorrect.1 h
  · simp [shortNames] at hmem
  · simp [shortNames] at hmem

/-! ### Runs of the server -/

/-- `replace_all(arg, "/", "$2f")` -/
def replaceSlashes (arg : Text) : Text :=
  arg.flatMap fun c => if c = '/' then "$2f".toList else [c]

/-- `replace_all(tree_path, "$2f", "/")` -/
def restoreSlashes : Text → Text
  | '$' :: '2' :: 'f' :: treePath => '/' :: restoreSlashes treePath
  | c :: treePath => c :: restoreSlashes treePath
  | [] => []

/-- The trees before the loop of `main`: the one of the argument. -/
def start (arg : Option Text) : State :=
  match arg with
  | none => ⟨[], fun _ => none⟩
  | some arg =>
    let tree := replaceSlashes arg
    ⟨[tree], Function.update (fun _ => none) tree (some (restoreSlashes tree))⟩

/-- The loop of `main`, for a list of requests. -/
def handleRequests (server : State) (requests : List (Option Text × Option Text)) :
    Except Fault State :=
  requests.foldlM (fun server request => Prod.fst <$> handleRequest server request.1 request.2)
    server

/-- What a request does to the server. -/
theorem handleRequest_cases {server server' : State} {pathString queryString : Option Text}
    {reply : Reply} (h : handleRequest server pathString queryString = .ok (server', reply)) :
    server' = server ∨ ∃ name, AsksFor pathString queryString name ∧ IsProcTahoe name ∧
      server' = server.serve name := by
  by_cases hasks : ∃ name, AsksFor pathString queryString name
  · obtain ⟨name, hname⟩ := hasks
    rcases handleRequest_of_asksFor server hname with ⟨-, h'⟩ | ⟨-, hproc, h'⟩ | ⟨-, -, h'⟩
    · simp [h] at h'
    · cases h.symm.trans h'
      exact .inr ⟨name, hname, hproc, rfl⟩
    · cases h.symm.trans h'
      exact .inl rfl
  · rcases handleRequest_of_not_asksFor server (not_exists.1 hasks) with h' | ⟨reply', h'⟩
    · simp [h] at h'
    · cases h.symm.trans h'
      exact .inl rfl

/-- Every tree of the list has a storage. -/
def Served (server : State) : Prop := ∀ tree ∈ server.trees, server.storageMap tree ≠ none

theorem served_start (arg : Option Text) : Served (start arg) := by
  cases arg with
  | none => simp [Served, start]
  | some arg => simp [Served, start]

theorem Served.serve {server : State} (h : Served server) (name : Text) :
    Served (server.serve name) := by
  intro tree htree
  by_cases hname : tree = name
  · simp [State.serve, hname]
  · have hold : tree ∈ server.trees := by simpa [State.serve, hname] using htree
    simpa [State.serve, Function.update_of_ne hname] using h tree hold

theorem Served.handleRequest {server server' : State} {pathString queryString : Option Text}
    {reply : Reply} (h : Served server)
    (hreq : handleRequest server pathString queryString = .ok (server', reply)) :
    Served server' := by
  rcases handleRequest_cases hreq with rfl | ⟨name, -, -, rfl⟩
  · exact h
  · exact h.serve name

/-- After any run every tree of the list has a storage, and the trees that were added have the right
names. -/
theorem Served.handleRequests {requests : List (Option Text × Option Text)} :
    ∀ {server server' : State}, Served server → handleRequests server requests = .ok server' →
      Served server' ∧ ∃ added, server'.trees = server.trees ++ added ∧
        ∀ name ∈ added, IsProcTahoe name := by
  induction requests with
  | nil =>
    rintro server server' h ⟨⟩
    exact ⟨h, [], by simp, by simp⟩
  | cons request requests ih =>
    intro server server' h hrun
    rw [Server.handleRequests, List.foldlM_cons] at hrun
    cases hreq : Server.handleRequest server request.1 request.2 with
    | error fault =>
      rw [hreq] at hrun
      cases hrun
    | ok next =>
      obtain ⟨mid, reply⟩ := next
      rw [hreq] at hrun
      obtain ⟨hserved, added, htrees, hadded⟩ := ih (h.handleRequest hreq) hrun
      refine ⟨hserved, ?_⟩
      rcases handleRequest_cases hreq with rfl | ⟨name, -, hproc, rfl⟩
      · exact ⟨added, htrees, hadded⟩
      · refine ⟨name :: added, by simp [htrees, State.serve], ?_⟩
        rw [List.forall_mem_cons]
        exact ⟨hproc, hadded⟩

end MegaTree.Server
