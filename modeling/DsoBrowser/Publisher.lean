import DsoBrowser.PeerEndpoints

/-!
# The publisher

`publisher.cpp` publishes two test pages and the files of a directory under their paths, and then
collects what has expired every second. The receiver thread of its node works from the start, so
datagrams come in between any two calls of the main thread.

The files are an argument, in the order in which the directory is walked. What a step publishes is
part of its output: the Data packet that stands for it, stamped as the store stamps it.
-/

namespace DsoBrowser

open Machine

/-- The validity period of a file, by what is somewhere in its path. -/
def fileFreshness (filePath : CString) : UInt32 :=
  if text ".html".toList <:+: filePath then 60000
  else if text ".css".toList <:+: filePath then 300000
  else if text ".js".toList <:+: filePath then 300000
  else 0

/-- `psirp_net_publish`, with what is published if it succeeds. -/
def publishAs (node : PsirpNode) (name : PsirpName) (data : List UInt8) (freshnessMs : UInt32)
    (env : PublishEnv) : Option PsirpData × PsirpNode × List Datagram :=
  let (ok, node, out) := psirpNetPublish node name data freshnessMs env
  (if ok then some ⟨name, data, env.now, freshnessMs⟩ else none, node, out)

/-- `publish_file`, on the content that `load_file` reads -/
def publishFile (node : PsirpNode) (name filePath : CString) (content : List UInt8)
    (env : PublishEnv) : Option PsirpData × PsirpNode × List Datagram :=
  if content = [] then (none, node, [])
  else
    match psirpNameInit name with
    | (false, _) => (none, node, [])
    | (true, psirpName) => publishAs node psirpName content (fileFreshness filePath) env

/-- A regular file of a directory. -/
structure DirectoryFile where
  /-- its path from the directory -/
  rel : CString
  /-- its path -/
  path : CString
  /-- what is in it -/
  content : List UInt8

/-- What `main` publishes. -/
inductive Publishable where
  /-- a page, under a name whose verdict is ignored -/
  | page : CString → List UInt8 → Publishable
  /-- a file, under a name -/
  | file : CString → DirectoryFile → Publishable

/-- The name as it is written. -/
def Publishable.name : Publishable → CString
  | .page name _ => name
  | .file name _ => name

/-- Publish it. -/
def Publishable.publish (node : PsirpNode) (env : PublishEnv) :
    Publishable → Option PsirpData × PsirpNode × List Datagram
  | .page name content => publishAs node (psirpNameInit name).2 content 60000 env
  | .file name f => publishFile node name f.path f.content env

/-- `publish_directory` -/
def publishDirectory (pfx : CString) (files : List DirectoryFile) : List Publishable :=
  files.map fun f => .file (pfx ++ slash :: f.rel) f

/-- A page, line by line. -/
def pageText (lines : List String) : List UInt8 := (text (lines.flatMap String.toList)).bytes

/-- The first test page. -/
def testPage : List UInt8 :=
  pageText ["<!DOCTYPE html>\n",
    "<html>\n",
    "<head><title>Test Page</title></head>\n",
    "<body>\n",
    "<h1>DSO-PSIRP Test Page</h1>\n",
    "<p>This content was served via PSIRP content-centric networking.</p>\n",
    "<p>Content name: <code>/test/page</code></p>\n",
    "<hr>\n",
    "<h2>Links:</h2>\n",
    "<ul>\n",
    "<li><a href='/test/page2'>Page 2</a></li>\n",
    "<li><a href='/images/logo.png'>Logo (PNG)</a></li>\n",
    "</ul>\n",
    "</body>\n",
    "</html>"]

/-- The second test page. -/
def testPage2 : List UInt8 :=
  pageText ["<!DOCTYPE html>\n",
    "<html>\n",
    "<head><title>Test Page 2</title></head>\n",
    "<body>\n",
    "<h1>Test Page 2</h1>\n",
    "<p>Another page served via PSIRP.</p>\n",
    "<p><a href='/test/page'>Back to Page 1</a></p>\n",
    "</body>\n",
    "</html>"]

/-- `/test/page` -/
def keyTestPage : CString := text "/test/page".toList

/-- `/test/page2` -/
def keyTestPage2 : CString := text "/test/page2".toList

/-- A publisher: its node, and what it is still to publish. -/
structure Publisher where
  /-- the node -/
  node : PsirpNode
  /-- not published yet -/
  left : List Publishable

/-- A step of one of the threads. -/
inductive PublisherInput where
  /-- of `main`, which publishes the next page or file, or collects -/
  | main : PublishEnv → PublisherInput
  /-- of the receiver thread, on a datagram to the node -/
  | unicast : PsirpPeer → List UInt8 → RecvEnv → PublisherInput
  /-- of the same, on a datagram to the group -/
  | multicast : PsirpPeer → List UInt8 → PublisherInput

/-- The clock a step reads, if it does. -/
def PublisherInput.reading : PublisherInput → Option UInt64
  | .main env => some env.now
  | .unicast _ _ env => some env.now
  | .multicast _ _ => none

/-- What a step publishes and sends. -/
structure PublisherOut where
  /-- what it has published -/
  published : Option PsirpData
  /-- the datagrams -/
  datagrams : List Datagram

/-- One step. -/
def publisherStep (s : Publisher) : PublisherInput → PublisherOut × Publisher
  | .main env =>
    match s.left with
    | [] => (⟨none, []⟩, { s with node := { s.node with cs := (psirpCsGc s.node.cs env.now).2 } })
    | p :: ps =>
      let (published, node, out) := p.publish s.node env
      (⟨published, out⟩, ⟨node, ps⟩)
  | .unicast src buf env =>
    let (node, out) := recvUnicast s.node src buf env
    (⟨none, out⟩, { s with node := node })
  | .multicast src buf => (⟨none, []⟩, { s with node := recvMulticast s.node src buf })

/-- `main` when the receiver thread runs. -/
def publisherStart (hasMcast : Bool) (files : List DirectoryFile) : Publisher where
  node := psirpNetInit psirpCsInit hasMcast
  left := [.page keyTestPage testPage, .page keyTestPage2 testPage2] ++ publishDirectory [] files

end DsoBrowser
