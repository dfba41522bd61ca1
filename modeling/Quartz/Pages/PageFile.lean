import Quartz.Pages.BasePage
import Quartz.Pages.HeaderPage

/-! Reading a page object from the file. -/

namespace Quartz.Storage.DatabaseFile
open Pages

/-- The page is rebuilt from its id and two fields of the header that is read. The header is read
into a variable that is not initialised. -/
def readPage (file : DatabaseFile) (page : Page) (variableBytes : Bytes.Block kPageHeaderSize) :
    Status × Page × DatabaseFile :=
  if page.id = kInvalidPageId then (Status.invalidArgument "Cannot read page with invalid ID", page, file)
  else
    let (status, file) := file.seekTo (page.id.toNat * kPageSize)
    if !status.ok then (status, page, file)
    else
      let (status, bytes, file) := file.readBytes variableBytes.bytes
      if !status.ok then (status, page, file)
      else
        let header := PageHeader.ofBytes bytes
        if !header.isValid then
          (Status.corruption ("Invalid page header at page " ++ toString page.id.toNat), page, file)
        else
          let page := (Page.make page.id header.pageType).setGeneration header.generation
          let (status, bytes, file) := file.readBytes page.payload
          (status, page.writePayload 0 bytes, file)

end Quartz.Storage.DatabaseFile
