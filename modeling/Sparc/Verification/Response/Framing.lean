import Sparc.Library.Occurrence
import Sparc.Library.SetCookie
import Sparc.Model.Reply
import Sparc.Verification.Buffer.Text

/-! # Responses are read as they were sent

The head of a response ends at its first empty line, and a client takes as many bytes behind it as
the header `content-length` says.
-/

namespace Sparc

/-! ## A client -/

/-- The lines of a head. -/
def headLines (head : CString) : List CString :=
  (head.splitOnP (fun c => decide (c ∈ ['\r', '\n']))).filter (fun l => !l.isEmpty)

/-- The name and the value of a header. -/
def parseLine (l : CString) : CString × CString :=
  (l.takeWhile (fun c => decide (c ≠ ':')), (l.dropWhile (fun c => decide (c ≠ ':'))).drop 2)

/-- The length of the body. -/
def bodyLength (headers : List (CString × CString)) : ℕ :=
  ((headers.find? (fun h => sameNoCase h.1 "content-length".toList)).bind
    (fun h => SetCookie.number h.2)).getD 0

/-- A response: the first line, the headers and the body. -/
structure Reply where
  line : CString
  headers : List (CString × CString)
  body : CString

/-- A client reads a response at the front of what comes in. -/
def Reply.ReadFrom (r : Reply) (stream rest : CString) : Prop :=
  ∃ head after, FirstIn ['\r', '\n', '\r', '\n'] stream head after ∧
    headLines head = r.line :: (headLines head).tail ∧
    (headLines head).tail.map parseLine = r.headers ∧
    after.take (bodyLength r.headers) = r.body ∧ after.drop (bodyLength r.headers) = rest

/-- Responses one after the other. -/
inductive RepliesFrom : List Reply → CString → CString → Prop where
  | nil (stream : CString) : RepliesFrom [] stream stream
  | cons {r : Reply} {rs : List Reply} {stream rest end_ : CString} (h : r.ReadFrom stream rest)
      (hrest : RepliesFrom rs rest end_) : RepliesFrom (r :: rs) stream end_

/-- What a client reads is determined by what comes in. -/
theorem Reply.ReadFrom.unique {r r' : Reply} {stream rest rest' : CString}
    (h : r.ReadFrom stream rest) (h' : r'.ReadFrom stream rest') : r = r' ∧ rest = rest' := by
  obtain ⟨head, after, hfirst, hline, hheaders, hbody, hrest⟩ := h
  obtain ⟨head', after', hfirst', hline', hheaders', hbody', hrest'⟩ := h'
  obtain ⟨rfl, rfl⟩ := hfirst.unique hfirst'
  have hlines : r.line = r'.line := (List.cons.inj (hline.symm.trans hline')).1
  have hsame : r.headers = r'.headers := hheaders.symm.trans hheaders'
  rw [hsame] at hbody hrest
  constructor
  · obtain ⟨line, headers, body⟩ := r
    obtain ⟨line', headers', body'⟩ := r'
    rw [Reply.mk.injEq]
    exact ⟨hlines, hsame, hbody.symm.trans hbody'⟩
  · exact hrest.symm.trans hrest'

theorem RepliesFrom.unique {rs rs' : List Reply} {stream rest rest' : CString}
    (h : RepliesFrom rs stream rest) (h' : RepliesFrom rs' stream rest')
    (hlength : rs.length = rs'.length) : rs = rs' ∧ rest = rest' := by
  induction h generalizing rs' with
  | nil stream =>
      cases h' with
      | nil => exact ⟨rfl, rfl⟩
      | cons => cases hlength
  | cons hread _ ih =>
      cases h' with
      | nil => cases hlength
      | cons hread' hrest' =>
          obtain ⟨rfl, rfl⟩ := hread.unique hread'
          obtain ⟨rfl, rfl⟩ := ih hrest' (Nat.succ.inj hlength)
          exact ⟨rfl, rfl⟩

/-! ## Lines -/

/-- Not empty, and without the characters that end a line. -/
def PlainLine (l : CString) : Prop := l ≠ [] ∧ '\r' ∉ l ∧ '\n' ∉ l

/-- Each line with its end. -/
def closedLines (ls : List CString) : CString := ls.flatMap (fun l => l ++ ['\r', '\n'])

theorem closedLines_cons (l : CString) (ls : List CString) :
    closedLines (l :: ls) = l ++ '\r' :: '\n' :: closedLines ls := by
  simp [closedLines]

theorem closedLines_ne_cr {ls : List CString} (h : ∀ l ∈ ls, PlainLine l) (hne : ls ≠ [])
    (text : CString) : ∃ c rest, closedLines ls ++ text = c :: rest ∧ c ≠ '\r' := by
  obtain ⟨l, ls, rfl⟩ := List.exists_cons_of_ne_nil hne
  obtain ⟨hl, hcr, -⟩ := h l List.mem_cons_self
  obtain ⟨c, l, rfl⟩ := List.exists_cons_of_ne_nil hl
  refine ⟨c, l ++ '\r' :: '\n' :: closedLines ls ++ text, ?_, ?_⟩
  · rw [closedLines_cons]
    rfl
  · exact fun heq => hcr (heq ▸ List.mem_cons_self)

/-- The head ends at the first empty line; the end of its last line is the beginning of it. -/
theorem firstIn_closedLines {ls : List CString} {l : CString} (h : ∀ m ∈ l :: ls, PlainLine m)
    (after : CString) :
    ∃ head, closedLines (l :: ls) = head ++ ['\r', '\n'] ∧ headLines head = l :: ls ∧
      FirstIn ['\r', '\n', '\r', '\n'] (closedLines (l :: ls) ++ '\r' :: '\n' :: after) head
        after := by
  induction ls generalizing l with
  | nil =>
      obtain ⟨hne, hcr, hlf⟩ := h l List.mem_cons_self
      have hcut : headLines l = [l] := by
        have hnot : ∀ c ∈ l, decide (c ∈ ['\r', '\n']) = false := by
          intro c hc
          simp [ne_of_mem_of_not_mem hc hcr, ne_of_mem_of_not_mem hc hlf]
        rw [headLines, List.splitOnP_eq_singleton hnot]
        simp [hne]
      have hhere :
          FirstIn ['\r', '\n', '\r', '\n'] ('\r' :: '\n' :: '\r' :: '\n' :: after) [] after :=
        FirstIn.here _ after
      refine ⟨l, by simp [closedLines], hcut, ?_⟩
      have hall := hhere.prepend l hcr
      simpa [closedLines] using hall
  | cons next ls ih =>
      obtain ⟨hne, hcr, hlf⟩ := h l List.mem_cons_self
      have hrest : ∀ m ∈ next :: ls, PlainLine m := fun m hm => h m (List.mem_cons_of_mem l hm)
      obtain ⟨head, hhead, hlines, hfirst⟩ := ih hrest
      obtain ⟨c, rest, hc, hcne⟩ := closedLines_ne_cr hrest (List.cons_ne_nil _ _)
        ('\r' :: '\n' :: after)
      refine ⟨l ++ '\r' :: '\n' :: head, ?_, ?_, ?_⟩
      · rw [closedLines_cons, hhead]
        simp
      · have hnot : ∀ c ∈ l, decide (c ∈ ['\r', '\n']) = false := by
          intro c hc
          simp [ne_of_mem_of_not_mem hc hcr, ne_of_mem_of_not_mem hc hlf]
        have hempty : ∀ c ∈ ([] : CString), decide (c ∈ ['\r', '\n']) = false := by simp
        have hcut := List.splitOnP_append_cons_of_forall_mem hempty '\n' (by decide) head
        rw [List.nil_append] at hcut
        rw [headLines, List.splitOnP_append_cons_of_forall_mem hnot '\r' (by decide), hcut,
          List.filter_cons_of_pos (by simp [hne]), List.filter_cons_of_neg (by simp)]
        rw [headLines] at hlines
        rw [hlines]
      · have hnot : ¬ ['\r', '\n', '\r', '\n'] <+:
            '\r' :: ('\n' :: (closedLines (next :: ls) ++ '\r' :: '\n' :: after)) := by
          rw [hc]
          intro hstart
          simp only [List.cons_prefix_cons, true_and] at hstart
          exact hcne hstart.1.symm
        have hall := ((hfirst.prepend ['\n'] (by decide)).skip hnot).prepend l hcr
        rw [closedLines_cons]
        simpa using hall

/-! ## The headers -/

/-- A header that is one line, with a name that ends at the first colon. The line fits into the
array that it is printed to. -/
structure PlainHeader (h : CString × CString) : Prop where
  name : ':' ∉ h.1 ∧ '\r' ∉ h.1 ∧ '\n' ∉ h.1
  value : '\r' ∉ h.2 ∧ '\n' ∉ h.2
  fits : h.1.length + h.2.length + 4 < bufsiz

theorem parseLine_headerLine {h : CString × CString} (hname : ':' ∉ h.1) :
    parseLine (headerLine h) = h := by
  have hall : ∀ c ∈ h.1, decide (c ≠ ':') = true := by
    intro c hc
    exact decide_eq_true (ne_of_mem_of_not_mem hc hname)
  rw [parseLine, headerLine, List.takeWhile_append_of_pos hall, List.dropWhile_append_of_pos hall]
  simp

theorem PlainHeader.plainLine {h : CString × CString} (hh : PlainHeader h) :
    PlainLine (headerLine h) := by
  refine ⟨by simp [headerLine], ?_, ?_⟩
  · simp [headerLine, hh.name.2.1, hh.value.1]
  · simp [headerLine, hh.name.2.2, hh.value.2]

/-- Lines that fit are printed one behind the other. -/
theorem printLines_eq (buf : CString) {ls : List CString} (h : ∀ l ∈ ls, l.length + 2 < bufsiz) :
    printLines buf ls = some (buf ++ closedLines ls) := by
  induction ls generalizing buf with
  | nil =>
      rw [closedLines, List.flatMap_nil, List.append_nil]
      rfl
  | cons l ls ih =>
      have hfits : (l ++ ['\r', '\n']).length < bufsiz := by
        simpa using h l List.mem_cons_self
      have hprinted : koreBufAppendv buf (l ++ ['\r', '\n']) true =
          some (buf ++ (l ++ ['\r', '\n'])) := koreBufAppendv_args_iff.2 ⟨hfits, rfl⟩
      have hrest := ih (buf ++ (l ++ ['\r', '\n'])) (fun m hm => h m (List.mem_cons_of_mem l hm))
      rw [printLines] at hrest ⊢
      rw [List.foldlM_cons, hprinted, Option.bind_eq_bind, Option.bind_some, hrest,
        closedLines_cons]
      simp

/-- A number is a text without the characters that end a line. -/
theorem notMem_toDigits (n : ℕ) {c : Char} (hc : c.isDigit = false) : c ∉ Nat.toDigits 10 n := by
  intro hmem
  rw [Nat.isDigit_of_mem_toDigits (by decide) (by decide) hmem] at hc
  cases hc

/-- A number of 64 bits has 20 digits at most. -/
theorem length_toDigits_le {n : ℕ} (h : n < 2 ^ 64) : (Nat.toDigits 10 n).length ≤ 20 :=
  (Nat.length_toDigits_le_iff (by decide) (by decide)).2 (Nat.lt_trans h (by decide))

theorem plainHeader_digits (name front back : CString) {n : ℕ} (hn : n < 2 ^ 64)
    (hname : ':' ∉ name ∧ '\r' ∉ name ∧ '\n' ∉ name) (hfront : '\r' ∉ front ∧ '\n' ∉ front)
    (hback : '\r' ∉ back ∧ '\n' ∉ back)
    (hshort : name.length + front.length + back.length < 1000) :
    PlainHeader (name, front ++ Nat.toDigits 10 n ++ back) := by
  have hcr := notMem_toDigits n (c := '\r') (by decide)
  have hlf := notMem_toDigits n (c := '\n') (by decide)
  have hlength := length_toDigits_le hn
  refine ⟨hname, ?_, ?_⟩
  · simp [hfront, hback, hcr, hlf]
  · simp only [List.length_append, bufsiz]
    omega

theorem httpStatusText_plain (status : ℕ) :
    '\r' ∉ httpStatusText status ∧ '\n' ∉ httpStatusText status ∧
      (httpStatusText status).length < 100 := by
  fun_cases httpStatusText status
  all_goals decide

theorem statusLine_eq (status : ℕ) :
    statusLine status =
      "HTTP/1.1 ".toList ++ Nat.toDigits 10 status ++ ' ' :: httpStatusText status :=
  rfl

theorem plainLine_statusLine (status : ℕ) : PlainLine (statusLine status) := by
  have hcr := notMem_toDigits status (c := '\r') (by decide)
  have hlf := notMem_toDigits status (c := '\n') (by decide)
  have hversion : '\r' ∉ "HTTP/1.1 ".toList ∧ '\n' ∉ "HTTP/1.1 ".toList := by decide
  obtain ⟨htextcr, htextlf, -⟩ := httpStatusText_plain status
  rw [PlainLine, statusLine_eq]
  simp only [List.mem_append, List.mem_cons, not_or]
  refine ⟨List.append_ne_nil_of_right_ne_nil _ (List.cons_ne_nil _ _), ?_, ?_⟩
  · exact ⟨⟨hversion.1, hcr⟩, by decide, htextcr⟩
  · exact ⟨⟨hversion.2, hlf⟩, by decide, htextlf⟩

theorem length_statusLine {status : ℕ} (h : status < 2 ^ 31) :
    (statusLine status).length + 2 < bufsiz := by
  obtain ⟨-, -, htext⟩ := httpStatusText_plain status
  have hdigits := length_toDigits_le (Nat.lt_trans h (by decide))
  have hversion : "HTTP/1.1 ".toList.length = 9 := rfl
  simp only [statusLine_eq, List.length_append, List.length_cons, hversion, bufsiz]
  omega

/-- The headers that are not from the application. -/
theorem plain_connectionHeaders (s : ReplySettings) (req : Option ReplyTo) (close : Bool) :
    ∀ h ∈ connectionHeaders s req close,
      PlainHeader h ∧ sameNoCase h.1 "content-length".toList = false := by
  intro h hh
  unfold connectionHeaders at hh
  split at hh
  · cases hh
  · split at hh
    · rcases List.mem_cons.mp hh with rfl | hh
      · exact ⟨⟨by decide, by decide, by decide⟩, by decide⟩
      · obtain rfl := List.mem_singleton.mp hh
        have htime : s.keepaliveTime.toNat < 2 ^ 64 :=
          Nat.lt_trans s.keepaliveTime.toNat_lt (by decide)
        have hplain := plainHeader_digits "keep-alive".toList "timeout=".toList [] htime
          (by decide) (by decide) (by decide) (by decide)
        rw [List.append_nil] at hplain
        have hname : sameNoCase "keep-alive".toList "content-length".toList = false := by decide
        exact ⟨hplain, hname⟩
    · obtain rfl := List.mem_singleton.mp hh
      exact ⟨⟨by decide, by decide, by decide⟩, by decide⟩

namespace Outgoing

/-- A response with a body that says its length, and headers of the application that are lines and
do not say it again. A status is an `int`, and a length a `size_t`. -/
structure Proper (a : Outgoing) : Prop where
  framed : 200 ≤ a.status ∧ a.status ≠ 204 ∧ a.req.head = false ∧ a.req.noContentLength = false
  sized : a.status < 2 ^ 31 ∧ a.d.length < 2 ^ 64
  headers : ∀ h ∈ a.req.respHeaders,
    PlainHeader h ∧ sameNoCase h.1 "content-length".toList = false

/-- All headers of the response. -/
def sentHeaders (s : ReplySettings) (closeEmpty : Bool) (a : Outgoing) : List (CString × CString) :=
  replyHeaders s (some a.req) (connectionClose (some a.req) closeEmpty) a.status a.d.length

/-- The headers in front of `content-length`. -/
theorem Proper.exists_headers {a : Outgoing} (ha : a.Proper) (s : ReplySettings)
    (closeEmpty : Bool) :
    ∃ front, a.sentHeaders s closeEmpty =
        front ++ [("content-length".toList, Nat.toDigits 10 a.d.length)] ∧
      ∀ h ∈ front, PlainHeader h ∧ sameNoCase h.1 "content-length".toList = false := by
  have hlength : a.status ≠ 204 ∧ 200 ≤ a.status ∧
      (some a.req).elim false ReplyTo.noContentLength = false :=
    ⟨ha.framed.2.1, ha.framed.1, ha.framed.2.2.2⟩
  refine ⟨_, by rw [Outgoing.sentHeaders, replyHeaders, if_pos hlength], ?_⟩
  intro h hh
  rcases List.mem_append.mp hh with hh | hh
  · rcases List.mem_append.mp hh with hh | hh
    · exact plain_connectionHeaders _ _ _ h hh
    · split at hh
      · obtain rfl := List.mem_singleton.mp hh
        have hname :
            sameNoCase "strict-transport-security".toList "content-length".toList = false := by
          decide
        exact ⟨plainHeader_digits _ _ _ s.hsts.toNat_lt (by decide) (by decide) (by decide)
          (by decide), hname⟩
      · cases hh
  · exact ha.headers h hh

theorem Proper.plain {a : Outgoing} (ha : a.Proper) (s : ReplySettings) (closeEmpty : Bool) :
    ∀ h ∈ a.sentHeaders s closeEmpty, PlainHeader h := by
  obtain ⟨front, heq, hfront⟩ := ha.exists_headers s closeEmpty
  intro h hh
  rw [heq] at hh
  rcases List.mem_append.mp hh with hh | hh
  · exact (hfront h hh).1
  · obtain rfl := List.mem_singleton.mp hh
    have hplain := plainHeader_digits "content-length".toList [] [] ha.sized.2
      (by decide) (by decide) (by decide) (by decide)
    rwa [List.nil_append, List.append_nil] at hplain

theorem Proper.bodyLength {a : Outgoing} (ha : a.Proper) (s : ReplySettings) (closeEmpty : Bool) :
    bodyLength (a.sentHeaders s closeEmpty) = a.d.length := by
  obtain ⟨front, heq, hfront⟩ := ha.exists_headers s closeEmpty
  have hnone : front.find? (fun h => sameNoCase h.1 "content-length".toList) = none := by
    rw [List.find?_eq_none]
    intro h hh
    rw [(hfront h hh).2]
    exact Bool.false_ne_true
  have hself : sameNoCase "content-length".toList "content-length".toList = true := by decide
  rw [Sparc.bodyLength, heq, List.find?_append, hnone, Option.none_or,
    List.find?_cons_of_pos (a := ("content-length".toList, Nat.toDigits 10 a.d.length)) hself,
    Option.bind_some, SetCookie.number_toDigits, Option.getD_some]

/-- What a client should read. -/
def reply (s : ReplySettings) (closeEmpty : Bool) (a : Outgoing) : Reply :=
  ⟨statusLine a.status, a.sentHeaders s closeEmpty, a.d⟩

/-- The lines of the head. -/
def lines (s : ReplySettings) (closeEmpty : Bool) (a : Outgoing) : List CString :=
  statusLine a.status :: (a.sentHeaders s closeEmpty).map headerLine

theorem Proper.lines_fit {a : Outgoing} (ha : a.Proper) (s : ReplySettings) (closeEmpty : Bool) :
    ∀ l ∈ a.lines s closeEmpty, PlainLine l ∧ l.length + 2 < bufsiz := by
  intro l hl
  rcases List.mem_cons.mp hl with rfl | hl
  · exact ⟨plainLine_statusLine a.status, length_statusLine ha.sized.1⟩
  · obtain ⟨h, hh, rfl⟩ := List.mem_map.mp hl
    have hplain := ha.plain s closeEmpty h hh
    have hfits := hplain.fits
    refine ⟨hplain.plainLine, ?_⟩
    simp only [headerLine, List.length_append, List.length_cons]
    omega

/-- What is queued: the lines of the head, an empty line and the body. -/
theorem Proper.queued {a : Outgoing} (ha : a.Proper) (s : ReplySettings) (closeEmpty : Bool) :
    httpResponseNormal s (some a.req) closeEmpty a.status (some a.d) a.d.length =
      some (closedLines (a.lines s closeEmpty) ++ '\r' :: '\n' :: a.d) := by
  have hbody : (some a.req).elim false (fun req => !req.head) = true := by
    rw [Option.elim_some, ha.framed.2.2.1, Bool.not_false]
  have hprinted := printLines_eq [] (fun l hl => (ha.lines_fit s closeEmpty l hl).2)
  rw [lines, sentHeaders] at hprinted
  simp only [httpResponseNormal, hbody, if_true, Option.getD_some, hprinted, Option.map_some,
    lines, sentHeaders, List.append_assoc, List.cons_append, List.nil_append]

/-- The response of the connection, in front of whatever is queued behind it. -/
theorem Proper.readFrom {a : Outgoing} (ha : a.Proper) (s : ReplySettings) (closeEmpty : Bool)
    (rest : CString) :
    (a.reply s closeEmpty).ReadFrom
      (closedLines (a.lines s closeEmpty) ++ '\r' :: '\n' :: (a.d ++ rest)) rest := by
  obtain ⟨head, -, hcut, hfirst⟩ := firstIn_closedLines
    (fun l hl => (ha.lines_fit s closeEmpty l hl).1) (a.d ++ rest)
  have hparse : ((a.sentHeaders s closeEmpty).map headerLine).map parseLine =
      a.sentHeaders s closeEmpty := by
    rw [List.map_map]
    refine (List.map_congr_left ?_).trans (List.map_id _)
    exact fun h hh => parseLine_headerLine (ha.plain s closeEmpty h hh).name.1
  refine ⟨head, a.d ++ rest, hfirst, ?_, ?_, ?_, ?_⟩
  · rw [hcut]
    rfl
  · rw [hcut, List.tail_cons, hparse]
    rfl
  · rw [reply, ha.bodyLength, List.take_left']
    rfl
  · rw [reply, ha.bodyLength, List.drop_left']
    rfl

end Outgoing

/-! ## A connection -/

/-- What a client should read of a connection. -/
def replies (s : ReplySettings) : Bool → List Outgoing → List Reply
  | _, [] => []
  | closeEmpty, a :: as =>
      a.reply s closeEmpty :: replies s (closesBehind s (some a.req) closeEmpty) as

theorem length_replies (s : ReplySettings) (closeEmpty : Bool) (as : List Outgoing) :
    (replies s closeEmpty as).length = as.length := by
  induction as generalizing closeEmpty with
  | nil => rfl
  | cons a as ih => rw [replies, List.length_cons, ih, List.length_cons]

/-- The step is one response in front of those that the connection queues behind it. -/
theorem repliesFrom_replies (s : ReplySettings) (closeEmpty : Bool) (as : List Outgoing)
    (rest : CString) (h : ∀ a ∈ as, a.Proper) :
    ∃ out, httpResponses s closeEmpty as = some out ∧
      RepliesFrom (replies s closeEmpty as) (out ++ rest) rest := by
  induction as generalizing closeEmpty with
  | nil => exact ⟨[], rfl, RepliesFrom.nil rest⟩
  | cons a as ih =>
      have ha := h a List.mem_cons_self
      obtain ⟨out, hout, hnext⟩ := ih (closesBehind s (some a.req) closeEmpty)
        (fun b hb => h b (List.mem_cons_of_mem a hb))
      refine ⟨closedLines (a.lines s closeEmpty) ++ '\r' :: '\n' :: a.d ++ out, ?_, ?_⟩
      · rw [httpResponses, ha.queued, Option.bind_some, hout, Option.map_some]
      · have hfirst := ha.readFrom s closeEmpty (out ++ rest)
        rw [replies]
        refine RepliesFrom.cons ?_ hnext
        simpa using hfirst

/-- The responses that a connection queues one after the other, whatever their bodies are and
whatever is queued behind them, are read by a client as these responses and as nothing else: the
status, the headers in the order in which they were set, and exactly the bytes of the body. -/
theorem responses_read_back (s : ReplySettings) (closeEmpty : Bool) (as : List Outgoing)
    (rest : CString) (h : ∀ a ∈ as, a.Proper) :
    ∃ out, httpResponses s closeEmpty as = some out ∧
      RepliesFrom (replies s closeEmpty as) (out ++ rest) rest ∧
      ∀ rs rest', rs.length = as.length → RepliesFrom rs (out ++ rest) rest' →
        rs = replies s closeEmpty as ∧ rest' = rest := by
  obtain ⟨out, hout, hread⟩ := repliesFrom_replies s closeEmpty as rest h
  refine ⟨out, hout, hread, ?_⟩
  intro rs rest' hlength hother
  exact hother.unique hread (hlength.trans (length_replies s closeEmpty as).symm)

/-- A body with empty lines and a response of its own in it, in front of a response that closes the
connection. -/
def twoResponses : List Outgoing :=
  [⟨⟨false, false, false, none, [("x".toList, "a: b".toList)]⟩, 200,
    "\r\n\r\nHTTP/1.1 404 Not Found\r\n\r\n".toList⟩,
    ⟨⟨false, false, false, some "Close".toList, []⟩, 404, []⟩]

theorem responses_read_back_two :
    ∃ out, httpResponses ⟨20, 0⟩ false twoResponses = some out ∧
      RepliesFrom (replies ⟨20, 0⟩ false twoResponses) (out ++ []) [] := by
  have hproper : ∀ a ∈ twoResponses, a.Proper := by
    intro a ha
    rcases List.mem_cons.mp ha with rfl | ha
    · refine ⟨by decide, by decide, ?_⟩
      intro h hh
      obtain rfl := List.mem_singleton.mp hh
      exact ⟨⟨by decide, by decide, by decide⟩, by decide⟩
    · obtain rfl := List.mem_singleton.mp ha
      exact ⟨by decide, by decide, fun h hh => absurd hh List.not_mem_nil⟩
  obtain ⟨out, hout, hread, -⟩ := responses_read_back ⟨20, 0⟩ false twoResponses [] hproper
  exact ⟨out, hout, hread⟩

end Sparc
