import Tachikoma.Web.Handlers

/-!
# The pages of hosts (`src/web/hosts.rs`)

The templates are `src/templates/hosts_lease.html` and `src/templates/all_hosts.html`: the page that
a user leases and releases from, and the page that lists all hosts. The first one offers the free
hosts of one group, the one in the query or else the one of the last visit, which a **cookie**
remembers. What a user ticks comes back as a form (`leaseForm`, `releaseForm`), which a browser
fills in from the boxes that the page has.
-/

set_option autoImplicit false

namespace Tachikoma

open Markup

/-! ## Groups -/

/-- `Display`. -/
def GroupId.display (id : GroupId) : String := toString id.val.toInt

/-- `FromStr`. -/
def GroupId.fromStr (s : String) : Except String GroupId :=
  match Decimal.parse (-2 ^ 31) (2 ^ 31) s with
  | some v => .ok ⟨Int32.ofInt v⟩
  | none => .error s!"Wrong value {s}, can not parse to as i32"

/-- `get_groups`: `ORDER BY name`. -/
def View.getGroups (order : List Nat) (v : View) : List Group :=
  orderBy (fun a b => compare a.name b.name) order v.groups

/-! ## `hosts_lease.html` -/

/-- The view of a leased host; the template unwraps its lease. -/
structure LeasedHostInfo where
  info : HostInfo
  leaseInfo : LeaseInfo
  isLeased : info.leaseInfo = some leaseInfo

/-- `displayTime` is `Display` of a `DateTime`. -/
structure HostsLeasePage where
  displayTime : Time → String
  groups : List GroupInfo
  selectedGroup : GroupInfo
  hosts : List HostInfo
  leased : List LeasedHostInfo
  error : Option String

namespace HostsLeasePage

def errorPieces : Option String → List Piece
  | none => []
  | some error =>
    [.text "
        <div>
            <p style=\"color:red;\"><i>",
      .hole error,
      .text "</i></p>
        </div>
        "]

/-- A round of the loop over the hosts that are free. -/
def hostPieces (host : HostInfo) : List Piece :=
  [.text "
                    <input type=\"checkbox\" id=\"",
    .hole host.id.display,
    .text "\" name=\"hosts_ids\" value=\"",
    .hole host.id.display,
    .text "\">
                    <label for=\"",
    .hole host.id.display,
    .text "\"> <a class=\"text-blue-600 visited:text-purple-600\" href=\"http://",
    .hole host.ipAddress,
    .text "\"
                            target=\"_blank\">",
    .hole host.ipAddress,
    .text "</a> (",
    .hole host.hostname,
    .text ") </label><br>
                    "]

/-- And over those that the user has. -/
def leasedPieces (displayTime : Time → String) (host : LeasedHostInfo) : List Piece :=
  [.text "
                    <input class=\"\" type=\"checkbox\" id=\"",
    .hole host.info.id.display,
    .text "\" name=\"hosts_ids\" value=\"",
    .hole host.info.id.display,
    .text "\">
                    <label for=\"",
    .hole host.info.id.display,
    .text "\"> <a class=\"text-blue-600 visited:text-purple-600\" href=\"http://",
    .hole host.info.ipAddress,
    .text "\"
                            target=\"_blank\">",
    .hole host.info.ipAddress,
    .text "</a> (",
    .hole host.info.hostname,
    .text ") (until expiration:
                        <time datetime=\"",
    .hole (displayTime host.leaseInfo.leasedUntil),
    .text "\"> ",
    .hole host.leaseInfo.validFor,
    .text "</time>)
                    </label><br>
                    "]

def groupPieces (group : GroupInfo) : List Piece :=
  [.text "
                <div class=\"flex\">
                    <div class=\"w-32\">",
    .hole group.name,
    .text "</div>
                    <div>
                        <button onclick=\"location.href='/hosts?group_id=",
    .hole group.id.display,
    .text "'\" type=\"button\"
                            class=\"inline-flex items-center gap-1 rounded-md bg-gray-300 dark:bg-gray-700 py-1 px-2 text-sm/6 font-semibold shadow-inner shadow-white/10\">Select</button>
                    </div>
                </div>
                "]

end HostsLeasePage

instance : Template HostsLeasePage where
  pieces self := List.flatten [
    [.text "<div class=\"flex flex-col place-self-center py-12 w-9/12\">
    <div>
        <p class=\"py-2\">Selected group \"",
      .hole self.selectedGroup.name,
      .text "\"</p>
        <button id=\"groups-dialog-open\"
            class=\"inline-flex items-center gap-2 rounded-md bg-gray-300 dark:bg-gray-700 py-1.5 px-3 text-sm/6 font-semibold shadow-inner shadow-white/10\">View
            all groups</button>
    </div>
    <div class=\"flex flex-col gap-4 place-self-center py-6 w-full\">
        "],
    HostsLeasePage.errorPieces self.error,
    [.text "
        <!-- main block -->
        <div class=\"row\">
            <form id=\"host-form\" hx-post=\"/hosts/lease\" hx-target=\"body\">
                <fieldset class=\"space-y-6 rounded-xl bg-black/5 dark:bg-white/5 p-6 sm:p-10\">
                    <p class=\"text-base/7 font-semibold\">Available hosts</p>
                    <fieldset>
                        <legend>Select lease period</legend>
                        <label for=\"days\">Days:</label>
                        <input
                            class=\"appearance-none rounded-lg border-none bg-black/5 dark:bg-white/5 py-1.5 px-3 text-sm/6\"
                            type=\"number\" id=\"days\" name=\"days\" min=\"0\" max=\"62\" value=\"0\">
                        <label for=\"days\">Hours:</label>
                        <input
                            class=\"appearance-none rounded-lg border-none bg-black/5 dark:bg-white/5 py-1.5 px-3 text-sm/6\"
                            type=\"number\" id=\"hours\" name=\"hours\" min=\"0\" max=\"23\" value=\"1\">
                    </fieldset>
                    <button
                        class=\"inline-flex items-center gap-2 rounded-md bg-gray-300 dark:bg-gray-700 py-1.5 px-3 text-sm/6 font-semibold shadow-inner shadow-white/10\"
                        type=\"submit\">Lease selected</button>
                    <button
                        class=\"inline-flex items-center gap-2 rounded-md bg-gray-300 dark:bg-gray-700 py-1.5 px-3 text-sm/6 font-semibold shadow-inner shadow-white/10\"
                        hx-validate=\"true\" hx-post=\"/hosts/lease/random?group_id=",
      .hole self.selectedGroup.id.display,
      .text "\">Lease random</button>
                    <br>
                    "],
    self.hosts.flatMap HostsLeasePage.hostPieces,
    [.text "
                </fieldset>
            </form>
            <br>
            <form hx-post=\"/hosts/release\" hx-target=\"body\">
                <fieldset class=\"space-y-6 rounded-xl bg-black/5 dark:bg-white/5 p-6 sm:p-10\">
                    <p class=\"text-base/7 font-semibold\">Your leased hosts</p>
                    <button
                        class=\"inline-flex items-center gap-2 rounded-md bg-gray-300 dark:bg-gray-700 py-1.5 px-3 text-sm/6 font-semibold shadow-inner shadow-white/10\"
                        type=\"submit\">Release selected</button>
                    <button
                        class=\"inline-flex items-center gap-2 rounded-md bg-gray-300 dark:bg-gray-700 py-1.5 px-3 text-sm/6 font-semibold shadow-inner shadow-white/10\"
                        hx-post=\"/hosts/release/all\" hx-include=\"\" hx-confirm=\"Are you sure?\">Release
                        all</button>
                    <br>
                    "],
    self.leased.flatMap (HostsLeasePage.leasedPieces self.displayTime),
    [.text "
                </fieldset>
            </form>
        </div>
    </div>
</div>
<dialog id=\"groups-dialog\" style=\"margin: revert;\" class=\"rounded-xl bg-black/5 dark:bg-white/5\">
    <div class=\"bg-white dark:bg-slate-800 justify-center overflow-hidden text-gray-900 dark:text-gray-200\">
        <fieldset class=\"space-y-6 p-6 sm:p-10\">
            <p class=\"text-base/7 font-semibold\">Groups</p>
            <div class=\"flex flex-col gap-4 place-self-center py-6 w-full\">
                "],
    self.groups.flatMap HostsLeasePage.groupPieces,
    [.text "
            </div>
            <button id=\"groups-dialog-close\"
                class=\"inline-flex items-center gap-2 rounded-md bg-gray-300 dark:bg-gray-700 py-1.5 px-3 text-sm/6 font-semibold shadow-inner shadow-white/10\"
                autofocus>
                Close
            </button>
        </fieldset>
    </div>
</dialog>
<script>
    var groupsDialog = document.getElementById(\"groups-dialog\");
    document.getElementById(\"groups-dialog-open\").addEventListener(\"click\", () => \x7b
        groupsDialog.showModal();
    \x7d);

    document.getElementById(\"groups-dialog-close\").addEventListener(\"click\", () => \x7b
        groupsDialog.close();
    \x7d);
</script>"]]

/-! ## `all_hosts.html` -/

structure AllHostsPage where
  hosts : List HostInfo
  deriving DecidableEq, Repr

namespace AllHostsPage

def leasePieces : Option LeaseInfo → List Piece
  | some leaseInfo => [.hole leaseInfo.leasedBy]
  | none => [.text "free"]

def hostPieces (host : HostInfo) : List Piece :=
  List.flatten [
    [.text "
                    <input type=\"hidden\" id=\"",
      .hole host.id.display,
      .text "\">
                    <label for=\"",
      .hole host.id.display,
      .text "\">
                        <a class=\"text-blue-600 visited:text-purple-600\" href=\"http://",
      .hole host.ipAddress,
      .text "\" target=\"_blank\">
                            ",
      .hole host.ipAddress,
      .text "
                        </a> (",
      .hole host.hostname,
      .text ") ("],
    leasePieces host.leaseInfo,
    [.text ")
                    </label>
                    <br>
                    "]]

end AllHostsPage

instance : Template AllHostsPage where
  pieces self := List.flatten [
    [.text "<div class=\"flex flex-col place-self-center py-12 w-9/12\">
    <div class=\"flex flex-col gap-4 place-self-center py-6 w-full\">
        <div class=\"row\">
            <form id=\"host-form\" hx-post=\"/hosts/lease\" hx-target=\"body\">
                <fieldset class=\"space-y-6 rounded-xl bg-black/5 dark:bg-white/5 p-6 sm:p-10\">
                    <p class=\"text-base/7 font-semibold\">All hosts</p>
                    "],
    self.hosts.flatMap AllHostsPage.hostPieces,
    [.text "
                </fieldset>
            </form>
        </div>
    </div>
</div>"]]

/-! ## The handlers -/

namespace HostsService

def getAvailableGroupHosts (groupId : GroupId) : Task HostError (List Host) :=
  withTx .databaseError fun tx => do
    let hosts ← (tx.fetch (.getAvailableGroupHosts groupId)).mapErr .databaseError
    tx.commit.mapErr .databaseError
    return hosts

def getLeasedHosts (userId : UserId) : Task HostError (List LeasedHost) :=
  withTx .databaseError fun tx => do
    let hosts ← (tx.getLeasedHosts userId).mapErr .databaseError
    tx.commit.mapErr .databaseError
    return hosts

end HostsService

/-- `From<Host>`: a host of which nothing is said about a lease. -/
def HostInfo.ofFreeHost (value : Host) : HostInfo :=
  ⟨value.id, value.hostname, value.ipAddress.ipText, none, none⟩

/-- `From<LeasedHost>`, with the reading of the clock that each of them takes. -/
def LeasedHostInfo.ofLeasedHosts {ε : Type} : List LeasedHost → Task ε (List LeasedHostInfo)
  | [] => return []
  | host :: rest => do
    let now ← utcNow
    let infos ← ofLeasedHosts rest
    return ⟨HostInfo.ofLeasedHost now host, .of now host.user host.leasedUntil, rfl⟩ :: infos

/-- `Result::unwrap`. -/
def unwrap {ε ε' α : Type} (x : Task ε α) : Task ε' α := do
  match ← x.attempt with
  | .ok a => return a
  | .error _ => Task.panic "called `Result::unwrap()` on an `Err` value"

/-- What all pages are rendered with. -/
structure PageSettings where
  appInfo : AppInfo
  authLink : Option String
  /-- `Display` of `DateTime<Utc>`. -/
  displayTime : Time → String

namespace Page

/-- The group that is asked for: in the query, or by the cookie. -/
def askedGroup (first : Group) (groupId : Option GroupId) (cookie : Option String) : GroupId :=
  match groupId with
  | some groupId => groupId
  | none =>
    match cookie with
    | none => first.id
    | some value => (GroupId.fromStr value).toOption.getD first.id

/-- The group of the page; the first one, if there is none with the id. -/
def selectedGroup (first : Group) (groups : List Group) (groupId : GroupId) : Group :=
  (groups.find? fun group => group.id = groupId).getD first

/-- The page for what was read: the groups, the free hosts of the selected one, and the user's
    own. -/
def leasePage (settings : PageSettings) (groups : List Group) (selected : Group) (user : AuthUser)
    (flashes : List (FlashLevel × String)) (hosts : List Host) (leased : List LeasedHostInfo) :
    HostsPage HostsLeasePage where
  page :=
    { displayTime := settings.displayTime
      groups := groups.map GroupInfo.ofGroup
      selectedGroup := .ofGroup selected
      hosts := hosts.map HostInfo.ofFreeHost
      leased
      error := flashes.head?.map (·.2) }
  user := .ofAuthUser user
  authLink := settings.authLink
  appInfo := settings.appInfo

/-- `get_hosts`, with the value of the cookie that it sets. It indexes `groups`, which it has read
    before anything else; no statement of the program changes them. -/
def getHosts (settings : PageSettings) (groups : List Group) (user : AuthUser)
    (groupId : Option GroupId) (cookie : Option String) (flashes : List (FlashLevel × String)) :
    Task Infallible (String × HostsPage HostsLeasePage) :=
  match groups with
  | [] => Task.panic "index out of bounds: the len is 0 but the index is 0"
  | first :: _ => do
    let groupId := askedGroup first groupId cookie
    let selected := selectedGroup first groups groupId
    let hosts ← unwrap (HostsService.getAvailableGroupHosts selected.id)
    let leased ← unwrap (HostsService.getLeasedHosts user.id)
    let infos ← LeasedHostInfo.ofLeasedHosts leased
    return (groupId.display, leasePage settings groups selected user flashes hosts infos)

def allHostsPage (settings : PageSettings) (user : AuthUser) (hosts : List HostInfo) :
    HostsPage AllHostsPage where
  page := ⟨hosts⟩
  user := .ofAuthUser user
  authLink := settings.authLink
  appInfo := settings.appInfo

/-- `get_all_hosts`. -/
def getAllHosts (settings : PageSettings) (user : AuthUser) :
    Task ListingError (HostsPage AllHostsPage) := do
  let hosts ← listAllHosts .page
  return allHostsPage settings user hosts

end Page

/-! ## What a browser sends -/

namespace HostsLeasePage

/-- The values of the boxes of the first form: what can be leased. -/
def boxes (page : HostsLeasePage) : List String := page.hosts.map (·.id.display)

/-- Those of the second form: what can be released. -/
def leasedBoxes (page : HostsLeasePage) : List String := page.leased.map (·.info.id.display)

end HostsLeasePage

/-- The first form, with what is in its fields and the boxes that are ticked. -/
def leaseForm (days hours : String) (ticked : List String) : Form :=
  ("days", days) :: ("hours", hours) :: ticked.map fun value => ("hosts_ids", value)

/-- The second one. -/
def releaseForm (ticked : List String) : Form := ticked.map fun value => ("hosts_ids", value)

/-- The messages for the page that a redirection leads to. -/
def PageResponse.flashes : PageResponse → List (FlashLevel × String)
  | .redirect flash _ => flash.toList
  | .rejected _ => []

end Tachikoma
