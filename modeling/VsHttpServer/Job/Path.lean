import VsHttpServer.Job.Fresh
import VsHttpServer.LexicalPath

/-!
# The document root

The path of a request is the document root followed by the URL, cut to what
`m_real_file` has room for. Nothing looks at its segments.

* `confined_iff`: when this path stays in the document root;
* `confined_of_ups`: it does when no part of the URL goes up more than down.
-/

namespace VsHttpServer

open CString Crlf LexicalPath

/-- The directory of the document root, and its last name. -/
def rootParent : List (List UInt8) := [ascii "mnt", ascii "hgfs"]
def rootName : List UInt8 := ascii "linux_study"

/-- The path is the document root or lies below it, once `.` and `..` are resolved. -/
def Confined (path : List UInt8) : Prop :=
  render (resolve path) = docRoot ∨ docRoot ++ [slash] <+: render (resolve path)

instance (path : List UInt8) : Decidable (Confined path) := inferInstanceAs (Decidable (_ ∨ _))

/-- The steps up, and then down, of the URL, from the parent of the document root: the
    URL goes on with the last name of this. -/
def urlSteps (url : List UInt8) : Relative (List UInt8) :=
  reduce (segments (rootName ++ url.take (filenameLen - docRoot.length - 1)))

/-- The names that the URL goes down begin with those of the document root, from where it
    turns. -/
def Returns (url : List UInt8) : Prop :=
  rootParent.drop (rootParent.length - (urlSteps url).ups) ++ [rootName] <+: (urlSteps url).names

instance (url : List UInt8) : Decidable (Returns url) := inferInstanceAs (Decidable (_ <+: _))

theorem resolve_filePath (url : List UInt8) :
    resolve (filePath url) =
      walk rootParent (segments (rootName ++ url.take (filenameLen - docRoot.length - 1))) := by
  have hroot : docRoot = ascii "/mnt/hgfs" ++ slash :: rootName := by decide
  have hparent : resolve (ascii "/mnt/hgfs") = rootParent := by decide
  rw [resolve, filePath]
  conv_lhs => rw [hroot]
  rw [List.append_assoc, List.cons_append, segments_append, walk_append, ← resolve, hparent, hroot]

theorem confined_filePath_iff (url : List UInt8) : Confined (filePath url) ↔ Returns url := by
  have hroot : docRoot = render (rootParent ++ [rootName]) := by decide
  rw [Confined, hroot, render_isPrefix_iff (by decide) (by decide) fun x hx =>
    slash_not_mem_of_resolve hx, resolve_filePath, append_isPrefix_walk_iff, Returns, urlSteps]

/-- A URL that never goes above its start stays in the document root. -/
theorem confined_of_ups {url rest : List UInt8}
    (hurl : url.take (filenameLen - docRoot.length - 1) = slash :: rest)
    (hups : (reduce (segments rest)).ups = 0) : Confined (filePath url) := by
  have hname : segments rootName = [.name rootName] := by decide
  have hroot : docRoot = render (rootParent ++ [rootName]) := by decide
  rw [Confined, hroot, render_isPrefix_iff (by decide) (by decide) fun x hx =>
    slash_not_mem_of_resolve hx, resolve_filePath, hurl, segments_append, hname, walk_append]
  exact isPrefix_walk hups _

namespace ConnJob

variable {c : ConnJob} {j : CJob}

theorem AtRest.path_buildPath (h : c.AtRest)
    (hloop : CJob.processReadLoop .lineOk c.toCJob = (.doRequest, j)) :
    j.buildPath.path = filePath (j.urlText.getD []) := by
  refine CJob.path_buildPath ?_
  have hsame := (CJob.sameOutput_processReadLoop .lineOk c.toCJob).realFile
  rw [hloop] at hsame
  rw [hsame]
  exact h.realFile

/-- In every state of a connection, and for every URL, the path that `do_request` gives to
    `stat` and `open` stays in the document root if and only if the URL, cut to the room in
    `m_real_file`, does not leave it, or returns to it by its names. -/
theorem confined_iff (h : Session.Reachable c)
    (hloop : CJob.processReadLoop .lineOk c.toCJob = (.doRequest, j)) :
    Confined j.buildPath.path ↔ Returns (j.urlText.getD []) := by
  rw [h.atRest.path_buildPath hloop, confined_filePath_iff]

/-- The first request of a connection gets to `do_request` with its path. -/
theorem accept_loop (memory : CJob) (fd : Descriptor) {q : Request} (hbody : q.BodyLess)
    (hlen : q.bytes.length ≤ readBufferSize) :
    Session.Reachable ((accept memory fd).readEvent q.bytes) ∧
      ∃ j, CJob.processReadLoop .lineOk ((accept memory fd).readEvent q.bytes).toCJob =
        (.doRequest, j) ∧ j.urlText.getD [] = q.path := by
  obtain ⟨j, hloop, hurl, -⟩ := q.read hbody (accept memory fd).toCJob
    (show (q.bytes ++ []).length ≤ readBufferSize by rwa [List.append_nil])
  rw [List.append_nil, ← (fresh_accept memory fd).readEvent] at hloop
  exact ⟨Session.reachable_readEvent memory fd hlen, j, hloop, hurl⟩

/-- The path `/a` on a new connection. -/
theorem confined_keepAlive :
    ∃ j, CJob.processReadLoop .lineOk ((accept default ⟨5, by decide⟩).readEvent
        keepAliveGet.bytes).toCJob = (.doRequest, j) ∧ Confined j.buildPath.path := by
  obtain ⟨hreach, j, hloop, hurl⟩ := accept_loop default ⟨5, by decide⟩ keepAliveGet_bodyLess
    (by rw [length_keepAliveGet]; decide)
  refine ⟨j, hloop, (confined_iff hreach hloop).2 ?_⟩
  rw [hurl, show keepAliveGet.path = ascii "/a" by decide +kernel]
  decide +kernel

/-- A request for a path outside of the document root. -/
def climbingGet : Request where
  line := ascii "GET /../x HTTP/1.1"
  headers := []
  clean_line := by decide
  clean_headers := nofun
  accepted := by decide +kernel
  header_ne := nofun

theorem not_confined :
    ∃ j, CJob.processReadLoop .lineOk ((accept default ⟨5, by decide⟩).readEvent
        (ascii "GET /../x HTTP/1.1\r\n\r\n")).toCJob = (.doRequest, j) ∧
      ¬Confined j.buildPath.path := by
  have hbytes : climbingGet.bytes = ascii "GET /../x HTTP/1.1\r\n\r\n" := by decide
  obtain ⟨hreach, j, hloop, hurl⟩ := accept_loop default ⟨5, by decide⟩
    (.inl ⟨.getRequest, by decide +kernel⟩ : climbingGet.BodyLess) (by rw [hbytes]; decide)
  rw [hbytes] at hreach hloop
  refine ⟨j, hloop, ?_⟩
  rw [hreach.atRest.path_buildPath hloop, hurl,
    show climbingGet.path = ascii "/../x" by decide +kernel]
  decide +kernel

end ConnJob

end VsHttpServer
